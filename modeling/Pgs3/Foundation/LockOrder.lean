import Pgs3.Foundation.LockRules

/-!
# Lock orders of bodies that only keep an invariant

Often nothing has to be known about the committed state but an invariant, and the question is
only in which order the locks are asked for.  `Call.Asks` follows a body with the locks and the
writes it has by then, for any state with the invariant at each read; errors and numbers do not
matter.  `no_deadlock_of_asks` is the rule for whole runs.
-/

namespace Foundation.Locks

variable {S : System} {α β γ : Type} [DecidableEq S.Lock]

/-- Rules that only keep an invariant. -/
def Rules.keeping (I : S.State → Prop) : Rules S := ⟨I, fun _ _ _ => False, fun _ _ _ => True⟩

/-! ## 1. Following a body -/

/-- With these locks and writes so far, the body asks for locks only as it may, and `Q` holds of
    what it returns and of what it holds and has written then. -/
def Call.Asks (E : Engine S) (I : S.State → Prop) (asks : Held S → S.Lock → S.Mode → Prop) :
    Held S → List S.Write → Call S β → (β → Held S → List S.Write → Prop) → Prop
  | H, ws, .pure b, Q => Q b H ws
  | _, _, .raise _, _ => True
  | H, ws, .read k, Q => ∀ s, I s → (k (E.applyAll ws s)).Asks E I asks H ws Q
  | H, ws, .draw _ k, Q => ∀ n, (k n).Asks E I asks H ws Q
  | H, ws, .write x k, Q => k.Asks E I asks H (ws ++ [x]) Q
  | H, ws, .lock r m k, Q =>
      if E.idle H r m then k.Asks E I asks H ws Q
      else asks H r m ∧ k.Asks E I asks ((r, m) :: H) ws Q

variable {E : Engine S} {I : S.State → Prop} {asks : Held S → S.Lock → S.Mode → Prop}
  {H : Held S} {ws : List S.Write}

theorem Call.Asks.mono {p : Call S β} {Q Q' : β → Held S → List S.Write → Prop}
    (h : p.Asks E I asks H ws Q) (hQ : ∀ b H ws, Q b H ws → Q' b H ws) :
    p.Asks E I asks H ws Q' := by
  induction p generalizing H ws with
  | pure b => exact hQ b H ws h
  | raise e => exact trivial
  | read k ih => exact fun s hs => ih _ (h s hs)
  | draw q k ih => exact fun n => ih n (h n)
  | write x k ih => exact ih h
  | lock r m k ih => exact ite_imp_ite ih (And.imp_right ih) h

theorem Call.Asks.bind {p : Call S β} {f : β → Call S γ} {P : β → Held S → List S.Write → Prop}
    {Q : γ → Held S → List S.Write → Prop} (hp : p.Asks E I asks H ws P)
    (hf : ∀ b H ws, P b H ws → (f b).Asks E I asks H ws Q) : (p >>= f).Asks E I asks H ws Q := by
  change (p.bind f).Asks E I asks H ws Q
  induction p generalizing H ws with
  | pure b => exact hf b H ws hp
  | raise e => exact trivial
  | read k ih => exact fun s hs => ih _ (hp s hs)
  | draw q k ih => exact fun n => ih n (hp n)
  | write x k ih => exact ih hp
  | lock r m k ih => exact ite_imp_ite ih (And.imp_right ih) hp

theorem Call.asks_view : (Call.view : Call S S.State).Asks E I asks H ws fun s' H' ws' =>
    (∃ s, I s ∧ s' = E.applyAll ws s) ∧ H' = H ∧ ws' = ws :=
  fun s hs => ⟨⟨s, hs, rfl⟩, rfl, rfl⟩

theorem Call.asks_emit {x : S.Write} : (Call.emit x).Asks E I asks H ws fun _ H' ws' =>
    H' = H ∧ ws' = ws ++ [x] :=
  ⟨rfl, rfl⟩

theorem Call.asks_next {q : S.Sequence} : (Call.next q).Asks E I asks H ws fun _ H' ws' =>
    H' = H ∧ ws' = ws :=
  fun _ => ⟨rfl, rfl⟩

theorem Call.asks_orRaise {o : Option β} {e : S.Error} :
    (Call.orRaise o e).Asks E I asks H ws fun b H' ws' => o = some b ∧ H' = H ∧ ws' = ws := by
  cases o with
  | none => exact trivial
  | some b => exact ⟨rfl, rfl, rfl⟩

theorem Call.asks_raiseIf {p : Prop} [Decidable p] {e : S.Error} :
    (Call.raiseIf p e).Asks E I asks H ws fun _ H' ws' => ¬ p ∧ H' = H ∧ ws' = ws := by
  unfold Call.raiseIf
  split
  · exact trivial
  · exact ⟨‹_›, rfl, rfl⟩

theorem Call.asks_ofExcept {x : Except S.Error β} :
    (Call.ofExcept x).Asks E I asks H ws fun b H' ws' => x = .ok b ∧ H' = H ∧ ws' = ws := by
  cases x with
  | error e => exact trivial
  | ok b => exact ⟨rfl, rfl, rfl⟩

theorem Call.asks_whenever {p : Prop} [Decidable p] {body : Call S Unit}
    {Q : Unit → Held S → List S.Write → Prop} (hbody : p → body.Asks E I asks H ws Q)
    (h : ¬ p → Q () H ws) : (Call.whenever p body).Asks E I asks H ws Q := by
  unfold Call.whenever
  split
  · exact hbody ‹_›
  · exact h ‹_›

theorem Call.asks_ask {r : S.Lock} {m : S.Mode} {Q : Unit → Held S → List S.Write → Prop}
    (hidle : E.idle H r m = true → Q () H ws)
    (hnew : E.idle H r m = false → asks H r m ∧ Q () ((r, m) :: H) ws) :
    (Call.ask r m).Asks E I asks H ws Q := by
  unfold Call.ask Call.Asks
  by_cases h : E.idle H r m = true
  · rw [if_pos h]
    exact hidle h
  · rw [if_neg h]
    rw [Bool.not_eq_true] at h
    exact hnew h

/-- A loop, with what holds before the turns that are left. -/
theorem Call.asks_each {f : β → Call S Unit} {bs : List β}
    {J : List β → Held S → List S.Write → Prop} (hJ : J bs H ws)
    (hturn : ∀ b bs H ws, J (b :: bs) H ws → (f b).Asks E I asks H ws fun _ H ws => J bs H ws) :
    (Call.each f bs).Asks E I asks H ws fun _ H ws => J [] H ws := by
  induction bs generalizing H ws with
  | nil => exact hJ
  | cons b bs ih => exact (hturn b bs H ws hJ).bind fun _ H ws h => ih h

/-! ## 2. Runs -/

theorem Call.Asks.obeys {p : Call S β} {c : Standing S} {Q : β → Held S → List S.Write → Prop}
    (h : p.Asks E I asks c.held c.writes Q) :
    p.Obeys E (Rules.keeping I) asks (fun _ => True) c fun b c => Q b c.held c.writes := by
  induction p generalizing c with
  | pure b => exact h
  | raise e => exact trivial
  | read k ih =>
    intro s hs _
    exact ⟨fun _ => True, trivial, Rules.stable_true, ih _ (h s hs)⟩
  | draw q k ih => exact fun n s _ _ _ => ih n (h n)
  | write x k ih => exact ih (c := { c with writes := c.writes ++ [x] }) h
  | lock r m k ih =>
    unfold Call.Asks at h
    unfold Call.Obeys
    split at h
    · rename_i hidle
      rw [if_pos hidle]
      exact ih h
    · rename_i hidle
      rw [if_neg hidle]
      exact ⟨h.1, ih (c := { c with held := (r, m) :: c.held }) h.2⟩

variable [DecidableEq S.Sequence] {n : Nat} {w : World n S α}

/-- **No deadlock.**  Every body keeps the invariant and asks for locks as it may, and whoever
    keeps others waiting for one lock while it waits for another does so in order. -/
theorem no_deadlock_of_asks {calls : Fin n → Call S α} {s : S.State}
    {sequence : S.Sequence → Nat} (asks : Fin n → Held S → S.Lock → S.Mode → Prop)
    (below : S.Lock → S.Lock → Prop) [IsStrictOrder S.Lock below] (hs : I s)
    (hcalls : ∀ i, (calls i).Asks E I (asks i) [] [] fun _ _ ws => ∀ s, I s → I (E.applyAll ws s))
    (horder : ∀ i j j' r r' m₁ m₂ m₁' m₂' H₁ H H₂, i ≠ j → j ≠ j' →
      Compatible E H₁ H → Compatible E H H₂ → asks i H₁ r m₁ →
      (r, m₂) ∈ H → E.conflict m₂ m₁ = true → asks j H r' m₁' → asks j' H₂ r' m₂' →
      E.conflict m₂' m₁' = true → below r r')
    (hw : Reach E (World.start s sequence calls) w) : ¬ w.Deadlocked E := by
  have hsound : (World.start s sequence calls).Sound E (Rules.keeping I)
      fun i => ⟨asks i, fun _ => True, fun _ _ _ => True⟩ := by
    apply World.sound_start hs
    · exact fun _ _ hused => absurd hused not_false
    · intro i
      refine Call.Obeys.mono ?_ (hcalls i).obeys
      intro b c hkeeps
      exact ⟨fun s hs _ => ⟨hkeeps s hs, trivial, fun _ _ hused => absurd hused not_false, trivial⟩⟩
  apply no_deadlock below (hw.sound hsound)
  intro i j j' r r' m₁ m₂ m₁' m₂' H₁ H H₂ hij hjj' _ _
  exact horder i j j' r r' m₁ m₂ m₁' m₂' H₁ H H₂ hij hjj'

end Foundation.Locks
