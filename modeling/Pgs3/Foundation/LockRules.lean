import Pgs3.Foundation.Locks

/-!
# Rules for transactions that wait for locks

A transaction knows something about the committed state as long as no other one can change
it, and what keeps the others from changing it are the locks it holds and the numbers it has
drawn.  `Rules` says what a commit may change with which locks; `Rules.Stable` are the facts
that no other commit can make false.

`Call.Obeys` is the calculus: a body is followed statement by statement, with the locks, the
writes and the stable facts at each point (`Standing`).  `Reach.sound` carries what the
bodies were shown to keep to over every interleaving, and `no_deadlock` is the rule for lock
orders.
-/

namespace Foundation.Locks

variable {S : System} {α β : Type}

/-! ## 1. What a commit may change -/

/-- What holds of every committed state, which numbers of which sequence a state uses, and
    what a transaction with these locks and numbers may change by its commit. -/
structure Rules (S : System) where
  inv : S.State → Prop
  used : S.Sequence → Nat → S.State → Prop
  changes : Held S → S.State → S.State → Prop

/-- What one transaction is held to: the locks it asks for with what it holds by then, the
    errors it ends with, and what is true of the committed state when it commits. -/
structure Duty (S : System) (α : Type) where
  asks : Held S → S.Lock → S.Mode → Prop
  raises : S.Error → Prop
  ends : α → List S.Write → S.State → Prop

/-- Where a body stands: the locks held, the numbers drawn, the writes made, and what is known
    of the committed state. -/
structure Standing (S : System) where
  held : Held S
  drawn : Drawn S
  writes : List S.Write
  knows : S.State → Prop

section Rules

variable (E : Engine S) (R : Rules S)

/-- No lock of the one is a conflicting lock of the other. -/
def Compatible (H H' : Held S) : Prop :=
  ∀ h ∈ H, ∀ h' ∈ H', h.1 = h'.1 → E.conflict h.2 h'.2 = false

theorem Compatible.symm {H H' : Held S} (h : Compatible E H H') : Compatible E H' H := by
  intro x hx y hy hxy
  rw [E.conflict_symm]
  exact h y hy x hx hxy.symm

/-- A commit of another transaction, seen by one with these locks and numbers. -/
structure Rules.Env (H : Held S) (D : Drawn S) (s s' : S.State) : Prop where
  before : R.inv s
  after : R.inv s'
  commit : ∃ H' D', Compatible E H H' ∧ D.Disjoint D' ∧ R.changes H' s s' ∧
    ∀ q n, R.used q n s' → R.used q n s ∨ (q, n) ∈ D'

theorem Rules.Env.mono {H H' : Held S} {D D' : Drawn S} {s s' : S.State} (hH : H ⊆ H')
    (hD : D ⊆ D') (h : R.Env E H' D' s s') : R.Env E H D s s' := by
  obtain ⟨H'', D'', hcompatible, hdisjoint, hchanges, hused⟩ := h.commit
  refine ⟨h.before, h.after, H'', D'', ?_, ?_, hchanges, hused⟩
  · exact fun x hx => hcompatible x (hH hx)
  · exact fun x hx => hdisjoint (hD hx)

/-- No commit of another transaction makes the fact false. -/
def Rules.Stable (H : Held S) (D : Drawn S) (K : S.State → Prop) : Prop :=
  ∀ s s', R.Env E H D s s' → K s → K s'

variable {E R} {H H' : Held S} {D D' : Drawn S} {K K' : S.State → Prop}

theorem Rules.Stable.mono (hH : H ⊆ H') (hD : D ⊆ D') (h : R.Stable E H D K) : R.Stable E H' D' K :=
  fun s s' henv hs => h s s' (henv.mono E R hH hD) hs

theorem Rules.Stable.and (h : R.Stable E H D K) (h' : R.Stable E H D K') :
    R.Stable E H D fun s => K s ∧ K' s :=
  fun s s' henv hs => ⟨h s s' henv hs.1, h' s s' henv hs.2⟩

theorem Rules.stable_true : R.Stable E H D fun _ => True :=
  fun _ _ _ _ => trivial

/-- A number that was drawn stays unused until its owner commits. -/
theorem Rules.stable_unused {q : S.Sequence} {n : Nat} (hn : (q, n) ∈ D) :
    R.Stable E H D fun s => ¬ R.used q n s := by
  intro s s' henv hunused hused
  obtain ⟨_, D', _, hdisjoint, _, hnew⟩ := henv.commit
  rcases hnew q n hused with h | h
  · exact hunused h
  · exact hdisjoint hn h

end Rules

/-! ## 2. Following a body -/

section Obeys

variable [DecidableEq S.Lock] (E : Engine S) (R : Rules S) (d : Duty S α)

/-- From the given standing, the body keeps to its duty, and `Q` holds of what it returns and
    of where it stands then.  After a read it may go on with any stable fact that is true of
    what was committed. -/
def Call.Obeys (asks : Held S → S.Lock → S.Mode → Prop) (raises : S.Error → Prop) :
    Standing S → Call S β → (β → Standing S → Prop) → Prop
  | c, .pure a, Q => Q a c
  | _, .raise e, _ => raises e
  | c, .read k, Q => ∀ s, R.inv s → c.knows s → ∃ K, K s ∧ R.Stable E c.held c.drawn K ∧
      (k (E.applyAll c.writes s)).Obeys asks raises { c with knows := K } Q
  | c, .draw q k, Q => ∀ n s, R.inv s → c.knows s → ¬ R.used q n s → (k n).Obeys asks raises
      { c with drawn := (q, n) :: c.drawn, knows := fun s => c.knows s ∧ ¬ R.used q n s } Q
  | c, .write x k, Q => k.Obeys asks raises { c with writes := c.writes ++ [x] } Q
  | c, .lock r m k, Q =>
      if E.idle c.held r m then k.Obeys asks raises c Q
      else asks c.held r m ∧ k.Obeys asks raises { c with held := (r, m) :: c.held } Q

/-- Where it stands, the transaction may commit. -/
structure Commits (a : α) (c : Standing S) : Prop where
  commit : ∀ s, R.inv s → c.knows s →
    R.inv (E.applyAll c.writes s) ∧ R.changes c.held s (E.applyAll c.writes s) ∧
      (∀ q n, R.used q n (E.applyAll c.writes s) → R.used q n s ∨ (q, n) ∈ c.drawn) ∧
      d.ends a c.writes s

variable {E R} {asks : Held S → S.Lock → S.Mode → Prop} {raises : S.Error → Prop}

theorem Call.Obeys.mono {p : Call S β} {c : Standing S} {Q Q' : β → Standing S → Prop}
    (hQ : ∀ b c, Q b c → Q' b c) (h : p.Obeys E R asks raises c Q) :
    p.Obeys E R asks raises c Q' := by
  induction p generalizing c with
  | pure a => exact hQ a c h
  | raise e => exact h
  | read k ih =>
    intro s hinv hs
    obtain ⟨K, hK, hstable, hk⟩ := h s hinv hs
    exact ⟨K, hK, hstable, ih _ hk⟩
  | draw q k ih => exact fun n s hinv hs hunused => ih n (h n s hinv hs hunused)
  | write x k ih => exact ih h
  | lock r m k ih => exact ite_imp_ite ih (And.imp_right ih) h

theorem Call.obeys_bind {γ : Type} {p : Call S β} {f : β → Call S γ} {c : Standing S}
    {Q : γ → Standing S → Prop}
    (h : p.Obeys E R asks raises c fun b c' => (f b).Obeys E R asks raises c' Q) :
    (p >>= f).Obeys E R asks raises c Q := by
  change (p.bind f).Obeys E R asks raises c Q
  induction p generalizing c with
  | pure a => exact h
  | raise e => exact h
  | read k ih =>
    intro s hinv hs
    obtain ⟨K, hK, hstable, hk⟩ := h s hinv hs
    exact ⟨K, hK, hstable, ih _ hk⟩
  | draw q k ih => exact fun n s hinv hs hunused => ih n (h n s hinv hs hunused)
  | write x k ih => exact ih h
  | lock r m k ih => exact ite_imp_ite ih (And.imp_right ih) h

variable {c : Standing S}

theorem Call.obeys_pure {b : β} {Q : β → Standing S → Prop} (h : Q b c) :
    (pure b : Call S β).Obeys E R asks raises c Q := h

theorem Call.obeys_view {Q : S.State → Standing S → Prop}
    (h : ∀ s, R.inv s → c.knows s → ∃ K, K s ∧ R.Stable E c.held c.drawn K ∧
      Q (E.applyAll c.writes s) { c with knows := K }) :
    (Call.view : Call S S.State).Obeys E R asks raises c Q := h

theorem Call.obeys_next {q : S.Sequence} {Q : Nat → Standing S → Prop}
    (h : ∀ n s, R.inv s → c.knows s → ¬ R.used q n s → Q n { c with
      drawn := (q, n) :: c.drawn, knows := fun s => c.knows s ∧ ¬ R.used q n s }) :
    (Call.next q).Obeys E R asks raises c Q := h

theorem Call.obeys_emit {x : S.Write} {Q : Unit → Standing S → Prop}
    (h : Q () { c with writes := c.writes ++ [x] }) :
    (Call.emit x).Obeys E R asks raises c Q := h

theorem Call.obeys_orRaise {o : Option β} {e : S.Error} {Q : β → Standing S → Prop}
    (hsome : ∀ b, o = some b → Q b c) (hnone : o = none → raises e) :
    (Call.orRaise o e).Obeys E R asks raises c Q := by
  cases o with
  | none => exact hnone rfl
  | some b => exact hsome b rfl

theorem Call.obeys_ofExcept {x : Except S.Error β} {Q : β → Standing S → Prop}
    (hok : ∀ b, x = .ok b → Q b c) (herror : ∀ e, x = .error e → raises e) :
    (Call.ofExcept x).Obeys E R asks raises c Q := by
  cases x with
  | ok b => exact hok b rfl
  | error e => exact herror e rfl

theorem Call.obeys_raiseIf {p : Prop} [Decidable p] {e : S.Error} {Q : Unit → Standing S → Prop}
    (hraise : p → raises e) (h : ¬ p → Q () c) : (Call.raiseIf p e).Obeys E R asks raises c Q := by
  unfold Call.raiseIf
  split
  · exact hraise ‹_›
  · exact h ‹_›

theorem Call.obeys_whenever {p : Prop} [Decidable p] {body : Call S Unit}
    {Q : Unit → Standing S → Prop} (hbody : p → body.Obeys E R asks raises c Q)
    (h : ¬ p → Q () c) : (Call.whenever p body).Obeys E R asks raises c Q := by
  unfold Call.whenever
  split
  · exact hbody ‹_›
  · exact h ‹_›

theorem Call.obeys_ask {r : S.Lock} {m : S.Mode} {Q : Unit → Standing S → Prop}
    (hask : E.idle c.held r m = false → asks c.held r m)
    (hidle : E.idle c.held r m = true → Q () c)
    (hnew : E.idle c.held r m = false → Q () { c with held := (r, m) :: c.held }) :
    (Call.ask r m).Obeys E R asks raises c Q := by
  unfold Call.ask Call.Obeys
  by_cases h : E.idle c.held r m = true
  · rw [if_pos h]
    exact hidle h
  · rw [if_neg h]
    rw [Bool.not_eq_true] at h
    exact ⟨hask h, hnew h⟩

end Obeys

/-! ## 3. Runs -/

section Sound

variable [DecidableEq S.Lock] (E : Engine S) (R : Rules S) {n : Nat} (d : Fin n → Duty S α)

/-- The body of a transaction in progress keeps to its duty from here on, with facts that are
    true and stable. -/
def Tx.Dutiful (d : Duty S α) (t : Tx S α) (s : S.State) : Prop :=
  ∃ K, K s ∧ R.Stable E t.held t.drawn K ∧
    t.call.Obeys E R d.asks d.raises ⟨t.held, t.drawn, t.writes, K⟩ (Commits E R d)

/-- The transaction waits only for a lock, and one that it does not have. -/
def Tx.Waiting (t : Tx S α) : Prop :=
  t.ticket.isSome → ∃ r m k, t.call = .lock r m k ∧ E.idle t.held r m = false

structure World.Sound (w : World n S α) : Prop where
  inv : R.inv w.committed
  fresh : ∀ q n, R.used q n w.committed →
    n < w.sequence q ∧ ∀ i t, w.tx i = some t → (q, n) ∉ t.drawn
  drawn : ∀ i t, w.tx i = some t → ∀ p ∈ t.drawn, p.2 < w.sequence p.1
  apart : ∀ i j t t', i ≠ j → w.tx i = some t → w.tx j = some t' →
    Compatible E t.held t'.held ∧ t.drawn.Disjoint t'.drawn
  asked : ∀ i t, w.tx i = some t → ∀ h ∈ t.held, ∃ H, H ⊆ t.held ∧ (d i).asks H h.1 h.2
  waiting : ∀ i t, w.tx i = some t → t.Waiting E
  dutiful : ∀ i t, w.tx i = some t → t.Dutiful E R (d i) w.committed

variable {E R d} {w w' : World n S α} {i : Fin n} {t : Tx S α}

theorem World.Sound.drop (h : w.Sound E R d) : (w.drop i).Sound E R d where
  inv := h.inv
  fresh := fun q n hused =>
    ⟨(h.fresh q n hused).1, fun j t ht => (h.fresh q n hused).2 j t (World.tx_drop ht).2⟩
  drawn := fun j t ht => h.drawn j t (World.tx_drop ht).2
  apart := fun i j t t' hij ht ht' =>
    h.apart i j t t' hij (World.tx_drop ht).2 (World.tx_drop ht').2
  asked := fun j t ht => h.asked j t (World.tx_drop ht).2
  waiting := fun j t ht => h.waiting j t (World.tx_drop ht).2
  dutiful := fun j t ht => h.dutiful j t (World.tx_drop ht).2

theorem World.Sound.set (h : w.Sound E R d) (ht : w.tx i = some t) (t' : Tx S α)
    (hheld : t'.held = t.held) (hdrawn : t'.drawn = t.drawn) (hwaiting : t'.Waiting E)
    (hdutiful : t'.Dutiful E R (d i) w.committed) (clock : Nat) :
    ({ w.set i t' with clock := clock } : World n S α).Sound E R d := by
  -- every transaction has the locks and numbers of one of the old world
  have hold : ∀ j u, (w.set i t').tx j = some u →
      ∃ u₀, w.tx j = some u₀ ∧ u.held = u₀.held ∧ u.drawn = u₀.drawn := by
    intro j u hu
    rcases World.tx_set hu with ⟨rfl, rfl⟩ | ⟨_, hu⟩
    · exact ⟨t, ht, hheld, hdrawn⟩
    · exact ⟨u, hu, rfl, rfl⟩
  constructor
  · exact h.inv
  · intro q n hused
    refine ⟨(h.fresh q n hused).1, ?_⟩
    intro j u hu
    obtain ⟨u₀, hu₀, _, hd⟩ := hold j u hu
    rw [hd]
    exact (h.fresh q n hused).2 j u₀ hu₀
  · intro j u hu
    obtain ⟨u₀, hu₀, _, hd⟩ := hold j u hu
    rw [hd]
    exact h.drawn j u₀ hu₀
  · intro j k u v hjk hu hv
    obtain ⟨u₀, hu₀, hh, hd⟩ := hold j u hu
    obtain ⟨v₀, hv₀, hh', hd'⟩ := hold k v hv
    rw [hh, hd, hh', hd']
    exact h.apart j k u₀ v₀ hjk hu₀ hv₀
  · intro j u hu
    obtain ⟨u₀, hu₀, hh, _⟩ := hold j u hu
    rw [hh]
    exact h.asked j u₀ hu₀
  · exact World.forall_tx_set hwaiting h.waiting
  · exact World.forall_tx_set hdutiful h.dutiful

theorem Tx.Waiting.idle (h : t.Waiting E) (hcall : ∀ r m k, t.call ≠ .lock r m k) :
    t.ticket = none := by
  cases hticket : t.ticket with
  | none => rfl
  | some ticket =>
    obtain ⟨r, m, k, hlock, _⟩ := h (by rw [hticket]; rfl)
    exact absurd hlock (hcall r m k)

theorem Tx.waiting_of_none (h : t.ticket = none) : t.Waiting E := by
  intro hsome
  rw [h] at hsome
  cases hsome

theorem World.Sound.grant {r : S.Lock} {m : S.Mode} {k : Call S α} (h : w.Sound E R d)
    (ht : w.tx i = some t) (hcall : t.call = .lock r m k) (hidle : E.idle t.held r m = false)
    (hfree : w.blocked E i r m t.ticket = false) :
    (w.set i { t with call := k, held := (r, m) :: t.held, ticket := none }).Sound E R d := by
  obtain ⟨K, hK, hstable, hobeys⟩ := h.dutiful i t ht
  rw [hcall] at hobeys
  unfold Call.Obeys at hobeys
  rw [if_neg (by simp [hidle])] at hobeys
  obtain ⟨hasks, hobeys⟩ := hobeys
  have hnew : ∀ j u, j ≠ i → w.tx j = some u → Compatible E u.held [(r, m)] := by
    intro j u hj hu x hx y hy hxy
    rw [List.mem_singleton.mp hy] at hxy ⊢
    rw [World.blocked, List.any_eq_false] at hfree
    have hj' := hfree j (List.mem_finRange j)
    simp only [hu, Option.any_some, ne_eq, hj, not_false_eq_true, decide_true, Bool.true_and,
      Bool.or_eq_true, not_or, Bool.not_eq_true] at hj'
    rw [Tx.holds, List.any_eq_false] at hj'
    simpa [hxy] using hj'.1 x hx
  have hwider : ∀ j u, j ≠ i → w.tx j = some u →
      Compatible E u.held ((r, m) :: t.held) := by
    intro j u hj hu x hx y hy
    rcases List.mem_cons.mp hy with rfl | hy
    · exact hnew j u hj hu x hx _ (List.mem_singleton_self _)
    · exact (h.apart j i u t hj hu ht).1 x hx y hy
  constructor
  · exact h.inv
  · intro q n hused
    obtain ⟨hlt, hnew⟩ := h.fresh q n hused
    exact ⟨hlt, World.forall_tx_set (hnew i t ht) hnew⟩
  · exact World.forall_tx_set (h.drawn i t ht) h.drawn
  · intro j l u v hjl hu hv
    rcases World.tx_set hu with ⟨rfl, rfl⟩ | ⟨hj, hu'⟩
    · rcases World.tx_set hv with ⟨rfl, rfl⟩ | ⟨hl, hv⟩
      · exact absurd rfl hjl
      · exact ⟨(hwider l v hl hv).symm, (h.apart j l t v hjl ht hv).2⟩
    · rcases World.tx_set hv with ⟨rfl, rfl⟩ | ⟨_, hv'⟩
      · exact ⟨hwider j u hj hu', (h.apart j l u t hjl hu' ht).2⟩
      · exact h.apart j l u v hjl hu' hv'
  · refine World.forall_tx_set (fun x hx => ?_) h.asked
    rcases List.mem_cons.mp hx with rfl | hx
    · exact ⟨t.held, List.subset_cons_self _ _, hasks⟩
    · obtain ⟨H, hH, hold⟩ := h.asked i t ht x hx
      exact ⟨H, List.Subset.trans hH (List.subset_cons_self _ _), hold⟩
  · exact World.forall_tx_set (Tx.waiting_of_none rfl) h.waiting
  · refine World.forall_tx_set ⟨K, hK, ?_, hobeys⟩ h.dutiful
    exact hstable.mono (List.subset_cons_self _ _) (List.Subset.refl _)

/-- A commit: what the others know stays true, because their locks and numbers are apart
    from those of the transaction that commits. -/
theorem World.Sound.commit {a : α} (h : w.Sound E R d) (ht : w.tx i = some t)
    (hcall : t.call = .pure a) : (w.commit i (E.applyAll t.writes w.committed)).Sound E R d := by
  obtain ⟨K, hK, _, hobeys⟩ := h.dutiful i t ht
  rw [hcall] at hobeys
  obtain ⟨hinv, hchanges, hused, _⟩ := hobeys.commit w.committed h.inv hK
  constructor
  · exact hinv
  · intro q n hn
    rcases hused q n hn with hold | hown
    · refine ⟨(h.fresh q n hold).1, ?_⟩
      intro j u hu
      exact (h.fresh q n hold).2 j u (World.tx_drop hu).2
    · refine ⟨h.drawn i t ht _ hown, ?_⟩
      intro j u hu hmem
      obtain ⟨hj, hu⟩ := World.tx_drop hu
      exact (h.apart i j t u hj.symm ht hu).2 hown hmem
  · exact fun j u hu => h.drawn j u (World.tx_drop hu).2
  · exact fun j l u v hjl hu hv => h.apart j l u v hjl (World.tx_drop hu).2 (World.tx_drop hv).2
  · exact fun j u hu => h.asked j u (World.tx_drop hu).2
  · exact fun j u hu => h.waiting j u (World.tx_drop hu).2
  · intro j u hu
    obtain ⟨hj, hu⟩ := World.tx_drop hu
    obtain ⟨K', hK', hstable', hobeys'⟩ := h.dutiful j u hu
    obtain ⟨hcompatible, hdisjoint⟩ := h.apart j i u t hj hu ht
    have henv : R.Env E u.held u.drawn w.committed (E.applyAll t.writes w.committed) :=
      ⟨h.inv, hinv, t.held, t.drawn, hcompatible, hdisjoint, hchanges, hused⟩
    exact ⟨K', hstable' _ _ henv hK', hstable', hobeys'⟩

variable [DecidableEq S.Sequence]

theorem World.Sound.drawNext {q : S.Sequence} {k : Nat → Call S α} (h : w.Sound E R d)
    (ht : w.tx i = some t) (hcall : t.call = .draw q k) :
    ({ w.set i { t with
        call := k (w.sequence q), drawn := (q, w.sequence q) :: t.drawn } with
      sequence := Function.update w.sequence q (w.sequence q + 1) } : World n S α).Sound E R d := by
  obtain ⟨K, hK, hstable, hobeys⟩ := h.dutiful i t ht
  rw [hcall] at hobeys
  have hsequence : ∀ p n, n < w.sequence p →
      n < Function.update w.sequence q (w.sequence q + 1) p := by
    intro p n hn
    by_cases hp : p = q
    · subst hp
      rw [Function.update_self]
      exact Nat.lt_succ_of_lt hn
    · rw [Function.update_of_ne hp]
      exact hn
  -- the number is new: nobody has drawn it, and no committed state uses it
  have hnobody : ∀ j u, w.tx j = some u → (q, w.sequence q) ∉ u.drawn := by
    intro j u hu hmem
    exact Nat.lt_irrefl _ (h.drawn j u hu _ hmem)
  have hunused : ¬ R.used q (w.sequence q) w.committed :=
    fun hused => Nat.lt_irrefl _ (h.fresh q _ hused).1
  constructor
  · exact h.inv
  · intro p n hused
    refine ⟨hsequence p n (h.fresh p n hused).1, ?_⟩
    refine World.forall_tx_set (fun hmem => ?_) (h.fresh p n hused).2
    rcases List.mem_cons.mp hmem with heq | hmem
    · cases heq
      exact hunused hused
    · exact (h.fresh p n hused).2 i t ht hmem
  · intro j u hu p hp
    rcases World.tx_set hu with ⟨rfl, rfl⟩ | ⟨_, hu⟩
    · rcases List.mem_cons.mp hp with rfl | hp
      · simp
      · exact hsequence _ _ (h.drawn j t ht p hp)
    · exact hsequence _ _ (h.drawn j u hu p hp)
  · intro j l u v hjl hu hv
    rcases World.tx_set hu with ⟨rfl, rfl⟩ | ⟨hj, hu'⟩
    · rcases World.tx_set hv with ⟨rfl, rfl⟩ | ⟨hl, hv'⟩
      · exact absurd rfl hjl
      · refine ⟨(h.apart j l t v hjl ht hv').1, ?_⟩
        exact List.disjoint_cons_left.mpr ⟨hnobody l v hv', (h.apart j l t v hjl ht hv').2⟩
    · rcases World.tx_set hv with ⟨rfl, rfl⟩ | ⟨_, hv'⟩
      · refine ⟨(h.apart j l u t hjl hu' ht).1, ?_⟩
        exact List.disjoint_cons_right.mpr ⟨hnobody j u hu', (h.apart j l u t hjl hu' ht).2⟩
      · exact h.apart j l u v hjl hu' hv'
  · exact World.forall_tx_set (h.asked i t ht) h.asked
  · refine World.forall_tx_set (Tx.waiting_of_none ?_) h.waiting
    exact (h.waiting i t ht).idle fun r m k hlock => by rw [hcall] at hlock; cases hlock
  · refine World.forall_tx_set ⟨fun s => K s ∧ ¬ R.used q (w.sequence q) s, ⟨hK, hunused⟩, ?_,
      hobeys _ w.committed h.inv hK hunused⟩ h.dutiful
    apply Rules.Stable.and
    · exact hstable.mono (List.Subset.refl _) (List.subset_cons_self _ _)
    · exact Rules.stable_unused List.mem_cons_self

theorem World.Sound.step (h : w.Sound E R d) (hw : w.step E i = some w') : w'.Sound E R d := by
  unfold World.step at hw
  split at hw
  · cases hw
  · rename_i t ht
    obtain ⟨K, hK, hstable, hobeys⟩ := h.dutiful i t ht
    have hwaiting := h.waiting i t ht
    split at hw
    · rename_i a hcall
      obtain rfl := Option.some.inj hw
      exact h.commit ht hcall
    · obtain rfl := Option.some.inj hw
      exact h.drop
    · rename_i k hcall
      obtain rfl := Option.some.inj hw
      rw [hcall] at hobeys
      obtain ⟨K', hK', hstable', hk⟩ := hobeys w.committed h.inv hK
      refine h.set ht { t with call := k (E.applyAll t.writes w.committed) } rfl rfl
        (Tx.waiting_of_none ?_) ⟨K', hK', hstable', hk⟩ w.clock
      exact hwaiting.idle fun r m k hlock => by rw [hcall] at hlock; cases hlock
    · rename_i q k hcall
      obtain rfl := Option.some.inj hw
      exact h.drawNext ht hcall
    · rename_i x k hcall
      obtain rfl := Option.some.inj hw
      rw [hcall] at hobeys
      refine h.set ht { t with call := k, writes := t.writes ++ [x] } rfl rfl
        (Tx.waiting_of_none ?_) ⟨K, hK, hstable, hobeys⟩ w.clock
      exact hwaiting.idle fun r m k hlock => by rw [hcall] at hlock; cases hlock
    · rename_i r m k hcall
      by_cases hidle : E.idle t.held r m = true
      · rw [if_pos hidle] at hw
        obtain rfl := Option.some.inj hw
        rw [hcall] at hobeys
        unfold Call.Obeys at hobeys
        rw [if_pos hidle] at hobeys
        refine h.set ht { t with call := k } rfl rfl (Tx.waiting_of_none ?_)
          ⟨K, hK, hstable, hobeys⟩ w.clock
        -- a transaction only waits for a lock that it does not have
        cases hticket : t.ticket with
        | none => rfl
        | some ticket =>
          obtain ⟨r', m', k', hcall', hidle'⟩ := hwaiting (by rw [hticket]; rfl)
          rw [hcall] at hcall'
          cases hcall'
          rw [hidle] at hidle'
          cases hidle'
      · rw [if_neg hidle] at hw
        rw [Bool.not_eq_true] at hidle
        unfold World.request at hw
        split at hw
        · split at hw
          · cases hw
          · obtain rfl := Option.some.inj hw
            refine h.set ht { t with ticket := some w.clock } rfl rfl ?_
              ⟨K, hK, hstable, hobeys⟩ (w.clock + 1)
            exact fun _ => ⟨r, m, k, hcall, hidle⟩
        · rename_i hfree
          obtain rfl := Option.some.inj hw
          exact h.grant ht hcall hidle (Bool.not_eq_true _ |>.mp hfree)

/-- **Every run.**  What the bodies were shown to keep to holds in every world that an
    interleaving leads to. -/
theorem Reach.sound {w₀ : World n S α} (h₀ : w₀.Sound E R d) (h : Reach E w₀ w) :
    w.Sound E R d := by
  induction h with
  | start => exact h₀
  | step _ hw ih => exact ih.step hw
  | abort _ ih => exact ih.drop

omit [DecidableEq S.Sequence] in
theorem World.sound_start {s : S.State} {sequence : S.Sequence → Nat}
    {calls : Fin n → Call S α} (hs : R.inv s) (hsequence : ∀ q n, R.used q n s → n < sequence q)
    (hcalls : ∀ i, (calls i).Obeys E R (d i).asks (d i).raises ⟨[], [], [], fun _ => True⟩
      (Commits E R (d i))) : (World.start s sequence calls).Sound E R d := by
  have hstart : ∀ i t, (World.start s sequence calls).tx i = some t →
      t = ⟨calls i, [], [], [], none⟩ :=
    fun i t ht => (Option.some.inj ht).symm
  constructor
  · exact hs
  · intro q n hused
    refine ⟨hsequence q n hused, ?_⟩
    intro i t ht
    rw [hstart i t ht]
    exact List.not_mem_nil
  · intro i t ht
    rw [hstart i t ht]
    exact fun p hp => absurd hp List.not_mem_nil
  · intro i j t t' _ ht ht'
    rw [hstart i t ht, hstart j t' ht']
    exact ⟨fun x hx => absurd hx List.not_mem_nil, List.disjoint_nil_left _⟩
  · intro i t ht
    rw [hstart i t ht]
    exact fun x hx => absurd hx List.not_mem_nil
  · intro i t ht
    rw [hstart i t ht]
    exact Tx.waiting_of_none rfl
  · intro i t ht
    rw [hstart i t ht]
    exact ⟨fun _ => True, trivial, Rules.stable_true, hcalls i⟩

omit [DecidableEq S.Sequence] in
theorem World.Sound.raises {e : S.Error} (h : w.Sound E R d) (ht : w.tx i = some t)
    (hcall : t.call = .raise e) : (d i).raises e := by
  obtain ⟨K, _, _, hobeys⟩ := h.dutiful i t ht
  rw [hcall] at hobeys
  exact hobeys

omit [DecidableEq S.Sequence] in
theorem World.Sound.ends {a : α} (h : w.Sound E R d) (ht : w.tx i = some t)
    (hcall : t.call = .pure a) : (d i).ends a t.writes w.committed := by
  obtain ⟨K, hK, _, hobeys⟩ := h.dutiful i t ht
  rw [hcall] at hobeys
  exact (hobeys.commit w.committed h.inv hK).2.2.2

/-- A number of the past: it was drawn, and by nobody who is still there. -/
def World.Spent (w : World n S α) (q : S.Sequence) (m : Nat) : Prop :=
  m < w.sequence q ∧ ∀ i t, w.tx i = some t → (q, m) ∉ t.drawn

/-- A number of the past that no committed state uses is never used again. -/
theorem World.Sound.unused_step {q : S.Sequence} {m : Nat} (h : w.Sound E R d)
    (hw : w.step E i = some w') (hspent : w.Spent q m) (hunused : ¬ R.used q m w.committed) :
    w'.Spent q m ∧ ¬ R.used q m w'.committed := by
  obtain ⟨hlt, hgone⟩ := hspent
  -- the transaction goes on with the numbers it has
  have hset : ∀ (t t' : Tx S α) (clock : Nat), w.tx i = some t → t'.drawn = t.drawn →
      ({ w.set i t' with clock := clock } : World n S α).Spent q m := by
    intro t t' clock ht hdrawn
    refine ⟨hlt, World.forall_tx_set ?_ hgone⟩
    rw [hdrawn]
    exact hgone i t ht
  have hdrop : (w.drop i).Spent q m := ⟨hlt, fun j u hu => hgone j u (World.tx_drop hu).2⟩
  unfold World.step at hw
  split at hw
  · cases hw
  · rename_i t ht
    split at hw
    · rename_i a hcall
      obtain rfl := Option.some.inj hw
      refine ⟨hdrop, ?_⟩
      intro hused
      obtain ⟨K, hK, _, hobeys⟩ := h.dutiful i t ht
      rw [hcall] at hobeys
      obtain ⟨_, _, hnew, _⟩ := hobeys.commit w.committed h.inv hK
      rcases hnew q m hused with hold | hown
      · exact hunused hold
      · exact hgone i t ht hown
    · obtain rfl := Option.some.inj hw
      exact ⟨hdrop, hunused⟩
    · obtain rfl := Option.some.inj hw
      exact ⟨hset t _ w.clock ht rfl, hunused⟩
    · rename_i p k hcall
      obtain rfl := Option.some.inj hw
      refine ⟨⟨?_, ?_⟩, hunused⟩
      · by_cases hp : q = p
        · subst hp
          simpa using Nat.lt_succ_of_lt hlt
        · simpa [Function.update_of_ne hp] using hlt
      · refine World.forall_tx_set (fun hmem => ?_) hgone
        rcases List.mem_cons.mp hmem with heq | hmem
        · cases heq
          exact Nat.lt_irrefl _ hlt
        · exact hgone i t ht hmem
    · obtain rfl := Option.some.inj hw
      exact ⟨hset t _ w.clock ht rfl, hunused⟩
    · split at hw
      · obtain rfl := Option.some.inj hw
        exact ⟨hset t _ w.clock ht rfl, hunused⟩
      · unfold World.request at hw
        split at hw
        · split at hw
          · cases hw
          · obtain rfl := Option.some.inj hw
            exact ⟨hset t _ (w.clock + 1) ht rfl, hunused⟩
        · obtain rfl := Option.some.inj hw
          exact ⟨hset t _ w.clock ht rfl, hunused⟩

theorem Reach.unused {w₀ : World n S α} {q : S.Sequence} {m : Nat} (h₀ : w₀.Sound E R d)
    (hspent : w₀.Spent q m) (hunused : ¬ R.used q m w₀.committed) (h : Reach E w₀ w) :
    ¬ R.used q m w.committed := by
  suffices hboth : w.Spent q m ∧ ¬ R.used q m w.committed from hboth.2
  induction h with
  | start => exact ⟨hspent, hunused⟩
  | step hreach hw ih => exact (hreach.sound h₀).unused_step hw ih.1 ih.2
  | abort _ ih => exact ⟨⟨ih.1.1, fun j u hu => ih.1.2 j u (World.tx_drop hu).2⟩, ih.2⟩

end Sound

/-! ## 4. Deadlock -/

section Deadlock

variable [DecidableEq S.Lock] {E : Engine S} {R : Rules S} {n : Nat} {d : Fin n → Duty S α}
  {w : World n S α}

/-- Transaction `i` waits for the lock `r`, with this ticket. -/
def World.WaitsAt (w : World n S α) (i : Fin n) (r : S.Lock) (ticket : Nat) : Prop :=
  ∃ t m k, w.tx i = some t ∧ t.call = .lock r m k ∧ t.ticket = some ticket

omit [DecidableEq S.Lock] in
theorem World.WaitsAt.unique {i : Fin n} {r r' : S.Lock} {ticket ticket' : Nat}
    (h : w.WaitsAt i r ticket) (h' : w.WaitsAt i r' ticket') : r = r' ∧ ticket = ticket' := by
  rcases h with ⟨t, m, k, ht, hcall, hticket⟩
  rcases h' with ⟨t', m', k', ht', hcall', hticket'⟩
  obtain rfl := Option.some.inj (ht.symm.trans ht')
  rw [hcall] at hcall'
  rw [hticket] at hticket'
  cases hcall'
  cases hticket'
  exact ⟨rfl, rfl⟩

/-- A lock that comes later, or an earlier place in the queue of the same lock. -/
def Later (below : S.Lock → S.Lock → Prop) (a b : S.Lock × Nat) : Prop :=
  below a.1 b.1 ∨ a.1 = b.1 ∧ b.2 < a.2

omit [DecidableEq S.Lock] in
theorem Later.trans {below : S.Lock → S.Lock → Prop} [IsTrans S.Lock below]
    {a b c : S.Lock × Nat} (hab : Later below a b) (hbc : Later below b c) : Later below a c := by
  rcases hab with hab | ⟨hab, hab'⟩
  · rcases hbc with hbc | ⟨hbc, _⟩
    · exact Or.inl (IsTrans.trans _ _ _ hab hbc)
    · exact Or.inl (hbc ▸ hab)
  · rcases hbc with hbc | ⟨hbc, hbc'⟩
    · exact Or.inl (hab ▸ hbc)
    · exact Or.inr ⟨hab.trans hbc, hbc'.trans hab'⟩

/-- **Waiting in order.**  If whoever keeps another transaction waiting only waits for later
    locks, nobody waits in a circle. -/
theorem not_deadlocked_of_later (below : S.Lock → S.Lock → Prop) [IsStrictOrder S.Lock below]
    (hlater : ∀ i j j', w.Waits E i j → w.Waits E j j' → ∀ r ticket r' ticket',
      w.WaitsAt i r ticket → w.WaitsAt j r' ticket' →
      Later below (r, ticket) (r', ticket')) : ¬ w.Deadlocked E := by
  have hat : ∀ i j, w.Waits E i j → ∃ r ticket, w.WaitsAt i r ticket := by
    intro i j hij
    obtain ⟨t, _, r, m, k, ticket, ht, _, _, hcall, hticket, _⟩ := (World.waits_iff E).mp hij
    exact ⟨r, ticket, t, m, k, ht, hcall, hticket⟩
  -- along a path whose last transaction waits too, the places get later
  have hpath : ∀ i j, Relation.TransGen (w.Waits E) i j → (∃ j', w.Waits E j j') →
      ∃ r ticket r' ticket', w.WaitsAt i r ticket ∧ w.WaitsAt j r' ticket' ∧
        Later below (r, ticket) (r', ticket') := by
    intro i j hij
    induction hij with
    | @single j hij =>
      rintro ⟨j', hjj'⟩
      rcases hat i j hij with ⟨r, ticket, hi⟩
      rcases hat j j' hjj' with ⟨r', ticket', hj⟩
      exact ⟨r, ticket, r', ticket', hi, hj, hlater i j j' hij hjj' r ticket r' ticket' hi hj⟩
    | @tail b j _ hbj ih =>
      rintro ⟨j', hjj'⟩
      rcases ih ⟨j, hbj⟩ with ⟨r, ticket, r', ticket', hi, hb, hfirst⟩
      rcases hat j j' hjj' with ⟨r'', ticket'', hj⟩
      have hlast := hlater b j j' hbj hjj' r' ticket' r'' ticket'' hb hj
      exact ⟨r, ticket, r'', ticket'', hi, hj, hfirst.trans hlast⟩
  rintro ⟨i, hcycle⟩
  rcases Relation.TransGen.head'_iff.mp hcycle with ⟨j, hij, _⟩
  rcases hpath i i hcycle ⟨j, hij⟩ with ⟨r, ticket, r', ticket', hi, hi', hlt⟩
  obtain ⟨rfl, rfl⟩ := hi.unique hi'
  rcases hlt with hlt | ⟨_, hlt⟩
  · exact irrefl_of below _ hlt
  · exact Nat.lt_irrefl _ hlt

theorem World.Sound.asks_of_waiting {i : Fin n} {t : Tx S α} {r : S.Lock} {m : S.Mode}
    {k : Call S α} {ticket : Nat} (h : w.Sound E R d) (ht : w.tx i = some t)
    (hcall : t.call = .lock r m k) (hticket : t.ticket = some ticket) :
    E.counted r = true ∧ (d i).asks t.held r m := by
  obtain ⟨K, _, _, hobeys⟩ := h.dutiful i t ht
  obtain ⟨r', m', k', hcall', hidle⟩ := h.waiting i t ht (by rw [hticket]; rfl)
  rw [hcall] at hcall' hobeys
  cases hcall'
  unfold Call.Obeys at hobeys
  rw [if_neg (by simp [hidle])] at hobeys
  unfold Engine.idle at hidle
  rw [Bool.or_eq_false_iff, Bool.not_eq_false'] at hidle
  exact ⟨hidle.1, hobeys.1⟩

/-- Whoever keeps a request waiting has asked for the lock, in a conflicting mode. -/
theorem World.Sound.asks_of_obstructing {j : Fin n} {t : Tx S α} {r : S.Lock} {m : S.Mode}
    {ticket : Option Nat} (h : w.Sound E R d) (ht : w.tx j = some t)
    (hobstructs : t.holds E r m = true ∨ t.ahead E r m ticket = true) :
    ∃ H m', H ⊆ t.held ∧ (d j).asks H r m' ∧ E.conflict m' m = true := by
  rcases hobstructs with hholds | hahead
  · obtain ⟨x, hmem, hx⟩ := List.any_eq_true.mp hholds
    simp only [Bool.and_eq_true, decide_eq_true_eq] at hx
    obtain ⟨H, hH, hasks⟩ := h.asked j t ht x hmem
    exact ⟨H, x.2, hH, hx.1 ▸ hasks, hx.2⟩
  · unfold Tx.ahead at hahead
    split at hahead
    · rename_i r' m' k place hcall hticket
      simp only [Bool.and_eq_true, decide_eq_true_eq] at hahead
      obtain ⟨⟨rfl, hconflict⟩, _⟩ := hahead
      exact ⟨_, m', List.Subset.refl _, (h.asks_of_waiting ht hcall hticket).2, hconflict⟩
    · cases hahead

/-- **No deadlock.**  It is enough that a transaction that holds `r` and asks for `r'` does so
    in order whenever others can ask for `r` and for `r'` in conflicting modes. -/
theorem no_deadlock (below : S.Lock → S.Lock → Prop) [IsStrictOrder S.Lock below]
    (h : w.Sound E R d) (horder : ∀ i j j' r r' m₁ m₂ m₁' m₂' H₁ H H₂, i ≠ j → j ≠ j' →
      E.counted r = true → E.counted r' = true →
      Compatible E H₁ H → Compatible E H H₂ → (d i).asks H₁ r m₁ →
      (r, m₂) ∈ H → E.conflict m₂ m₁ = true → (d j).asks H r' m₁' → (d j').asks H₂ r' m₂' →
      E.conflict m₂' m₁' = true → below r r') : ¬ w.Deadlocked E := by
  apply not_deadlocked_of_later below
  intro i j j' hij hjj' x place x' place' hx hx'
  obtain ⟨t, t', r, m, k, ticket, ht, ht', hne, hcall, hticket, hobstructs⟩ :=
    (World.waits_iff E).mp hij
  obtain ⟨u, u', r', m', k', ticket', hu, hu', hne', hcall', hticket', hobstructs'⟩ :=
    (World.waits_iff E).mp hjj'
  obtain rfl := Option.some.inj (ht'.symm.trans hu)
  obtain ⟨rfl, rfl⟩ := hx.unique ⟨t, m, k, ht, hcall, hticket⟩
  obtain ⟨rfl, rfl⟩ := hx'.unique ⟨t', m', k', ht', hcall', hticket'⟩
  rcases hobstructs with hholds | hahead
  · -- `j` holds the lock
    obtain ⟨y, hmem, hy⟩ := List.any_eq_true.mp hholds
    simp only [Bool.and_eq_true, decide_eq_true_eq] at hy
    obtain ⟨rfl, hconflict⟩ := hy
    obtain ⟨H₂, m₂', hH₂, hasks', hconflict'⟩ := h.asks_of_obstructing hu' hobstructs'
    have hcompatible := (h.apart i j t t' hne ht ht').1
    have hcompatible' : Compatible E t'.held H₂ := fun x hx y hy =>
      (h.apart j j' t' u' hne' ht' hu').1 x hx y (hH₂ hy)
    left
    rcases h.asks_of_waiting ht hcall hticket with ⟨hcounted, hasks⟩
    rcases h.asks_of_waiting ht' hcall' hticket' with ⟨hcounted', hasks₁⟩
    exact horder i j j' y.1 x' m y.2 m' m₂' t.held t'.held H₂ hne hne' hcounted hcounted'
      hcompatible hcompatible' hasks hmem hconflict hasks₁ hasks' hconflict'
  · -- `j` waits for the same lock, and did so before
    unfold Tx.ahead at hahead
    rw [hcall', hticket'] at hahead
    simp only [Bool.and_eq_true, decide_eq_true_eq, Option.all_some] at hahead
    exact Or.inr ⟨hahead.1.1.symm, hahead.2⟩

end Deadlock

end Foundation.Locks
