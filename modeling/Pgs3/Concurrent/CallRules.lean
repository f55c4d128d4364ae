import Pgs3.Concurrent.BucketRules

/-!
# Every call keeps to the bucket rules

Each function of the calls is followed once, statement by statement, from what it may start
with (`Settled`) to what is true when it returns.  `Goes` is the judgement: the function asks
for advisory locks in order, raises no foreign key violation, makes only writes of one kind,
and keeps what was known.  The calls are then put together from their functions, and each one
may commit where it ends.
-/

namespace Pgs3.Concurrent

open Foundation Foundation.Locks
open Foundation.Locks.Call (view next emit ask orRaise ofExcept raiseIf whenever each)

variable {c' : Standing system} {k : Bytes} {e : PgError} {a : LockName} {m : LockMode}
  {name key : Text} {size : Nat}

/-! ## 1. Where a call stands -/

/-- Not PostgreSQL's `foreign_key_violation`. -/
def noForeignKey (e : PgError) : Prop := e.sqlstate ≠ .«23503»

/-- The advisory locks that may be held by now. -/
abbrev LockList := List (LockName × LockMode)

/-- The blobs that inserted rows refer to. -/
def CatalogWrite.blobs : CatalogWrite → List Bytes
  | .insertObjects _ rows => rows.filterMap (·.blobId)
  | _ => []

/-- The blob is known to be there: it was seen, or this transaction inserts it. -/
def KnowsBlob (c : Standing system) (k : Bytes) : Prop :=
  (∀ s, c.knows s → s.HasBlob k) ∨ ∃ size, .insertBlob k size ∈ c.writes

variable (counted : CatalogLock → Bool)

/-- What is known is stable, only these advisory locks are held, only such writes were made,
    and the blobs of inserted rows are there. -/
structure Settled (l : LockList) (W : CatalogWrite → Prop) (c : Standing system) : Prop where
  stable : bucketRules.Stable (engine counted) c.held c.drawn c.knows
  possible : ∃ s, s.Valid ∧ c.knows s
  locks : ∀ h ∈ c.held, ∀ a : LockName, h.1 = a.lock → (a, h.2) ∈ l
  writes : ∀ x ∈ c.writes, W x
  blobs : ∀ x ∈ c.writes, ∀ k ∈ x.blobs, KnowsBlob c k

/-- Nothing is lost from one standing to a later one. -/
structure Grows (c c' : Standing system) : Prop where
  held : c.held ⊆ c'.held
  drawn : c.drawn ⊆ c'.drawn
  writes : c.writes ⊆ c'.writes
  knows : ∀ s, c'.knows s → c.knows s

theorem Grows.refl (c : Standing system) : Grows c c :=
  ⟨List.Subset.refl _, List.Subset.refl _, List.Subset.refl _, fun _ h => h⟩

theorem Grows.trans {c c'' : Standing system} (h : Grows c c') (h' : Grows c' c'') : Grows c c'' :=
  ⟨List.Subset.trans h.held h'.held, List.Subset.trans h.drawn h'.drawn,
    List.Subset.trans h.writes h'.writes, fun s hs => h.knows s (h'.knows s hs)⟩

theorem KnowsBlob.mono {c : Standing system} (h : KnowsBlob c k) (hgrows : Grows c c') :
    KnowsBlob c' k := by
  rcases h with h | ⟨size, h⟩
  · exact Or.inl fun s hs => h s (hgrows.knows s hs)
  · exact Or.inr ⟨size, hgrows.writes h⟩

theorem KnowsBlob.overlay {c : Standing system} {s : Catalog} (h : KnowsBlob c k) (hs : c.knows s) :
    (overlay c.writes s).HasBlob k := by
  rcases h with h | ⟨size, h⟩
  · exact hasBlob_overlay (h s hs)
  · exact hasBlob_overlay_insert h

variable {counted} {l l' : LockList} {W W' : CatalogWrite → Prop} {c : Standing system}

theorem Settled.mono (h : Settled counted l W c) (hl : l ⊆ l') (hW : ∀ x, W x → W' x) :
    Settled counted l' W' c where
  stable := h.stable
  possible := h.possible
  locks := fun x hx a ha => hl (h.locks x hx a ha)
  writes := fun x hx => hW x (h.writes x hx)
  blobs := h.blobs

variable (counted)

/-- The function keeps to the rules from `c` on, ends settled, and loses nothing. -/
def Goes {β : Type} (c : Standing system) (p : CatalogCall β) (l : LockList)
    (W : CatalogWrite → Prop) (F : β → Standing system → Prop) : Prop :=
  p.Obeys (engine counted) bucketRules asksInOrder noForeignKey c fun b c' =>
    Settled counted l W c' ∧ Grows c c' ∧ F b c'

variable {counted} {β γ : Type} {F : β → Standing system → Prop} {G : γ → Standing system → Prop}

theorem Goes.bind {p : CatalogCall β} {f : β → CatalogCall γ} (hp : Goes counted c p l W F)
    (hf : ∀ b c', Settled counted l W c' → Grows c c' → F b c' → Goes counted c' (f b) l' W' G) :
    Goes counted c (p >>= f) l' W' G := by
  apply Call.obeys_bind
  refine Call.Obeys.mono ?_ hp
  rintro b c' ⟨hsettled, hgrows, hF⟩
  refine Call.Obeys.mono ?_ (hf b c' hsettled hgrows hF)
  rintro g c'' ⟨hsettled', hgrows', hG⟩
  exact ⟨hsettled', hgrows.trans hgrows', hG⟩

variable (counted) in
/-- The rest of a call keeps to the rules and ends like this. -/
abbrev Keeps (c : Standing system) (p : CatalogCall γ) (Q : γ → Standing system → Prop) : Prop :=
  p.Obeys (engine counted) bucketRules asksInOrder noForeignKey c Q

variable {Q : γ → Standing system → Prop}

theorem Goes.then {p : CatalogCall β} {f : β → CatalogCall γ} (hp : Goes counted c p l W F)
    (hf : ∀ b c', Settled counted l W c' → Grows c c' → F b c' → Keeps counted c' (f b) Q) :
    Keeps counted c (p >>= f) Q := by
  apply Call.obeys_bind
  refine Call.Obeys.mono ?_ hp
  rintro b c' ⟨hsettled, hgrows, hF⟩
  exact hf b c' hsettled hgrows hF

theorem Goes.still {p : CatalogCall β} {f : β → CatalogCall γ}
    (hp : Goes counted c p l W fun _ c' => c' = c) (hf : ∀ b, Keeps counted c (f b) Q) :
    Keeps counted c (p >>= f) Q := by
  refine hp.then ?_
  rintro b c' _ _ rfl
  exact hf b

theorem Goes.imp {F' : β → Standing system → Prop} {p : CatalogCall β} (h : Goes counted c p l W F)
    (hF : ∀ b c', Settled counted l W c' → Grows c c' → F b c' → F' b c') :
    Goes counted c p l W F' :=
  Call.Obeys.mono (fun b c' h => ⟨h.1, h.2.1, hF b c' h.1 h.2.1 h.2.2⟩) h

theorem Goes.weaken {p : CatalogCall β} (h : Goes counted c p l W F) (hl : l ⊆ l') :
    Goes counted c p l' W F :=
  Call.Obeys.mono (fun _ _ h => ⟨h.1.mono hl fun _ hx => hx, h.2⟩) h

theorem keeps_unless {p : Prop} [Decidable p] {f : Unit → CatalogCall γ}
    (he : p → noForeignKey e) (hf : ¬ p → Keeps counted c (f ()) Q) :
    Keeps counted c (raiseIf p e >>= f) Q :=
  Call.obeys_bind (Call.obeys_raiseIf he hf)

theorem keeps_check {p : Prop} [Decidable p] {f : Unit → CatalogCall γ} (he : noForeignKey e)
    (hf : Keeps counted c (f ()) Q) : Keeps counted c (raiseIf p e >>= f) Q :=
  keeps_unless (fun _ => he) fun _ => hf

theorem keeps_orRaise {o : Option β} {f : β → CatalogCall γ} (he : noForeignKey e)
    (hf : ∀ b, o = some b → Keeps counted c (f b) Q) : Keeps counted c (orRaise o e >>= f) Q :=
  Call.obeys_bind (Call.obeys_orRaise hf fun _ => he)

section Settled

variable (h : Settled counted l W c)

include h

theorem goes_pure {b : β} (hF : F b c) : Goes counted c (pure b) l W F :=
  ⟨h, Grows.refl c, hF⟩

/-- A read, with a stable fact that it shows. -/
theorem goes_view {F : Catalog → Standing system → Prop}
    (hview : ∀ s, s.Valid → c.knows s → ∃ K, K s ∧
      bucketRules.Stable (engine counted) c.held c.drawn K ∧
      F (overlay c.writes s) { c with knows := fun s => c.knows s ∧ K s }) :
    Goes counted c view l W F := by
  apply Call.obeys_view
  intro s hvalid hs
  rcases hview s hvalid hs with ⟨K, hK, hstable, hF⟩
  have hgrows : Grows c { c with knows := fun s => c.knows s ∧ K s } :=
    ⟨List.Subset.refl _, List.Subset.refl _, List.Subset.refl _, fun _ h => h.1⟩
  refine ⟨fun s => c.knows s ∧ K s, ⟨hs, hK⟩, h.stable.and hstable, ?_, hgrows, hF⟩
  exact ⟨h.stable.and hstable, ⟨s, hvalid, hs, hK⟩, h.locks, h.writes,
    fun x hx k hk => (h.blobs x hx k hk).mono hgrows⟩

theorem goes_emit {x : CatalogWrite} {F : Unit → Standing system → Prop}
    (hx : W x) (hblobs : ∀ k ∈ x.blobs, KnowsBlob c k)
    (hF : F () { c with writes := c.writes ++ [x] }) : Goes counted c (emit x) l W F := by
  have hgrows : Grows c { c with writes := c.writes ++ [x] } :=
    ⟨List.Subset.refl _, List.Subset.refl _, List.subset_append_left _ _, fun _ h => h⟩
  refine ⟨⟨h.stable, h.possible, h.locks, ?_, ?_⟩, hgrows, hF⟩
  · intro y hy
    rcases List.mem_append.mp hy with hy | hy
    · exact h.writes y hy
    · rw [List.mem_singleton.mp hy]
      exact hx
  · intro y hy k hk
    rcases List.mem_append.mp hy with hy | hy
    · exact (h.blobs y hy k hk).mono hgrows
    · rw [List.mem_singleton.mp hy] at hk
      exact (hblobs k hk).mono hgrows

theorem goes_plain {x : CatalogWrite} (hx : W x)
    (hnone : x.blobs = []) : Goes counted c (emit x) l W fun _ c' => x ∈ c'.writes := by
  apply goes_emit h hx
  · intro k hk
    rw [hnone] at hk
    cases hk
  · exact List.mem_append_right _ (List.mem_singleton_self _)

theorem goes_next {q : CatalogSequence} {F : Nat → Standing system → Prop}
    (hF : ∀ n, F n { c with
      drawn := (q, n) :: c.drawn, knows := fun s => c.knows s ∧ ¬ usesNumber q n s }) :
    Goes counted c (next q) l W F := by
  apply Call.obeys_next
  intro n s hvalid hs hunused
  have hgrows : Grows c { c with
      drawn := (q, n) :: c.drawn, knows := fun s => c.knows s ∧ ¬ usesNumber q n s } :=
    ⟨List.Subset.refl _, List.subset_cons_self _ _, List.Subset.refl _, fun _ h => h.1⟩
  refine ⟨⟨?_, ⟨s, hvalid, hs, hunused⟩, h.locks, h.writes, ?_⟩, hgrows, hF n⟩
  · apply Rules.Stable.and
    · exact h.stable.mono (List.Subset.refl _) (List.subset_cons_self _ _)
    · exact Rules.stable_unused List.mem_cons_self
  · exact fun x hx k hk => (h.blobs x hx k hk).mono hgrows

theorem goes_orRaise {o : Option β} (he : noForeignKey e)
    (hF : ∀ b, o = some b → F b c) : Goes counted c (orRaise o e) l W F :=
  Call.obeys_orRaise (fun b hb => ⟨h, Grows.refl c, hF b hb⟩) fun _ => he

theorem goes_raiseIf {p : Prop} [Decidable p] {F : Unit → Standing system → Prop}
    (he : p → noForeignKey e) (hF : ¬ p → F () c) :
    Goes counted c (raiseIf p e) l W F :=
  Call.obeys_raiseIf he fun hp => ⟨h, Grows.refl c, hF hp⟩

theorem goes_check {p : Prop} [Decidable p] (he : noForeignKey e) :
    Goes counted c (raiseIf p e) l W fun _ c' => c' = c :=
  goes_raiseIf h (fun _ => he) fun _ => rfl

theorem keeps_look {f : Catalog → CatalogCall γ}
    (hf : ∀ s, (∃ s', s'.Valid ∧ c.knows s' ∧ overlay c.writes s' = s) → Keeps counted c (f s) Q) :
    Keeps counted c (view >>= f) Q :=
  Call.obeys_bind (Call.obeys_view fun s hvalid hs =>
    ⟨c.knows, hs, h.stable, hf _ ⟨s, hvalid, hs, rfl⟩⟩)

theorem goes_ofExcept {x : Except PgError β}
    (he : ∀ e, x = .error e → noForeignKey e) (hF : ∀ b, x = .ok b → F b c) :
    Goes counted c (ofExcept x) l W F :=
  Call.obeys_ofExcept (fun b hb => ⟨h, Grows.refl c, hF b hb⟩) he

/-- A loop whose turns all go from the same kind of standing to the same. -/
theorem goes_each {f : β → CatalogCall Unit} {bs : List β} {I : Standing system → Prop}
    (hI : I c) (hturn : ∀ b ∈ bs, ∀ c, Settled counted l W c → I c →
      Goes counted c (f b) l W fun _ c' => I c') :
    Goes counted c (each f bs) l W fun _ c' => I c' := by
  induction bs generalizing c with
  | nil => exact ⟨h, Grows.refl c, hI⟩
  | cons b bs ih =>
    have hfirst := hturn b List.mem_cons_self c h hI
    refine Goes.bind (f := fun _ => each f bs) hfirst ?_
    intro _ c' hsettled _ hI'
    exact ih hsettled hI' fun b' hb' => hturn b' (List.mem_cons_of_mem _ hb')

end Settled

/-! ## 2. Asking for locks -/

def Had (c : Standing system) (a : LockName) (m : LockMode) : Prop :=
  ∃ m', (a.lock, m') ∈ c.held ∧ m'.covers m = true

theorem Had.mono {c : Standing system} (h : Had c a m) (hgrows : Grows c c') : Had c' a m := by
  rcases h with ⟨m', hheld, hcovers⟩
  exact ⟨m', hgrows.held hheld, hcovers⟩

theorem Had.locked {c : Standing system} (h : Had c (.lifecycle name) .shared) :
    Locked c.held name := by
  rcases h with ⟨m', hheld, hcovers⟩
  cases m' with
  | shared => exact Or.inl hheld
  | exclusive => exact Or.inr hheld
  | _ => cases hcovers

theorem Had.owned {c : Standing system} (h : Had c (.lifecycle name) .exclusive) :
    Owned c.held name := by
  rcases h with ⟨m', hheld, hcovers⟩
  cases m' with
  | exclusive => exact hheld
  | _ => cases hcovers

/-- All locks that may be held come before this one. -/
def Admits (l : LockList) (a : LockName) : Prop := ∀ p ∈ l, p.1.rank < a.rank

theorem idle_iff {r : CatalogLock} {held : Held system} (hr : counted r = true) :
    (engine counted).idle held r m = true ↔ ∃ m', (r, m') ∈ held ∧ m'.covers m = true := by
  have hcount : (engine counted).counted r = true := hr
  simp only [Engine.idle, hcount, Bool.not_true, Bool.false_or, Engine.covered, List.any_eq_true,
    Bool.and_eq_true, decide_eq_true_eq]
  constructor
  · rintro ⟨h, hmem, rfl, hcovers⟩
    exact ⟨h.2, hmem, hcovers⟩
  · rintro ⟨m', hmem, hcovers⟩
    exact ⟨_, hmem, rfl, hcovers⟩

theorem Settled.hold {r : CatalogLock} (h : Settled counted l W c)
    (hr : ∀ a : LockName, r = a.lock → (a, m) ∈ l) :
    Settled counted l W { c with held := (r, m) :: c.held } ∧
      Grows c { c with held := (r, m) :: c.held } := by
  have hgrows : Grows c { c with held := (r, m) :: c.held } :=
    ⟨List.subset_cons_self _ _, List.Subset.refl _, List.Subset.refl _, fun _ h => h⟩
  refine ⟨⟨h.stable.mono (List.subset_cons_self _ _) (List.Subset.refl _), h.possible, ?_,
    h.writes, fun x hx k hk => (h.blobs x hx k hk).mono hgrows⟩, hgrows⟩
  intro x hx a ha
  rcases List.mem_cons.mp hx with rfl | hx
  · exact hr a ha
  · exact h.locks x hx a ha

variable (hcounted : ∀ id, counted (.advisory id) = true)

include hcounted in
theorem goes_lock (h : Settled counted l W c) (hl : l ⊆ l') (ha : (a, m) ∈ l')
    (hready : Had c a m ∨ Admits l a) :
    Goes counted c (ask a.lock m) l' W fun _ c' => Had c' a m := by
  have hcount : counted a.lock = true := by
    cases a <;> exact hcounted _
  apply Call.obeys_ask
  · intro hidle _
    refine ⟨a, rfl, ?_⟩
    intro x hx e he
    rcases hready with hhad | hadmits
    · rw [Bool.eq_false_iff] at hidle
      exact absurd ((idle_iff hcount).mpr hhad) hidle
    · exact hadmits _ (h.locks x hx e he)
  · intro hidle
    exact ⟨h.mono hl fun _ hx => hx, Grows.refl c, (idle_iff hcount).mp hidle⟩
  · intro _
    have hsome : ∀ e : LockName, a.lock = e.lock → (e, m) ∈ l' := by
      intro e he
      rw [← LockName.lock_inj he]
      exact ha
    rcases (h.mono hl fun _ hx => hx).hold hsome with ⟨hsettled, hgrows⟩
    exact ⟨hsettled, hgrows, m, List.mem_cons_self, by cases m <;> rfl⟩

/-- Row locks have no place in the order. -/
theorem goes_row {r : CatalogLock} (h : Settled counted l W c) (hr : isAdvisory r = false) :
    Goes counted c (ask r m) l W fun _ _ => True := by
  apply Call.obeys_ask
  · intro _ hadvisory
    rw [hr] at hadvisory
    cases hadvisory
  · exact fun _ => ⟨h, Grows.refl c, trivial⟩
  · intro _
    have hnone : ∀ a : LockName, r = a.lock → (a, m) ∈ l := by
      intro a ha
      rw [ha] at hr
      cases a <;> cases hr
    exact ⟨(h.hold hnone).1, (h.hold hnone).2, trivial⟩

/-! ## 3. Names and checks -/

/-- A write that adds no child to any bucket. -/
def Harmless : CatalogWrite → Prop
  | .insertBucket _ | .deleteBucket _ | .insertObjects _ _ | .insertUpload _ => False
  | _ => True

/-- What all writes of a call before and besides its bucket rows are like. -/
structure Allowed (W : CatalogWrite → Prop) : Prop where
  keeps : ∀ x, W x → x.KeepsBuckets
  harmless : ∀ x, Harmless x → W x

theorem Settled.bucket_eq (h : Settled counted l W c) (hkeeps : ∀ x, W x → x.KeepsBuckets)
    (s : Catalog) : (overlay c.writes s).bucket = s.bucket :=
  bucket_overlay (fun x hx => hkeeps x (h.writes x hx)) s

/-- The bucket row is known to be there, and a lifecycle lock of its name is held. -/
structure Child (b : BucketRow) (c : Standing system) : Prop where
  locked : Locked c.held b.name
  found : ∀ s, c.knows s → b ∈ s.bucket

theorem Child.mono {b : BucketRow} {c : Standing system} (h : Child b c) (hgrows : Grows c c') :
    Child b c' where
  locked := by
    rcases h.locked with hshared | howned
    · exact Or.inl (hgrows.held hshared)
    · exact Or.inr (hgrows.held howned)
  found := fun s hs => h.found s (hgrows.knows s hs)

theorem Child.unique {b b' : BucketRow} (h : Settled counted l W c) (hb : Child b c)
    (hb' : Child b' c) (hname : b.name = b'.name) : b = b' := by
  rcases h.possible with ⟨s, hvalid, hs⟩
  exact hvalid.names b (hb.found s hs) b' (hb'.found s hs) hname

theorem noForeignKey_noSuchBucket (name : Text) : noForeignKey (noSuchBucket name) :=
  SqlState.noConfusion

theorem Catalog.visible_some {s : Catalog} {ctx : Context} {b : BucketRow}
    (h : s.visible ctx name = some b) : b ∈ s.bucket ∧ b.name = name := by
  unfold Catalog.visible at h
  have hfound := List.find?_some h
  rw [decide_eq_true_eq] at hfound
  exact ⟨List.mem_of_find?_eq_some h, hfound.1⟩

theorem checkWritePreconditions_error {current : Option ObjectRow}
    {ifNoneMatch ifMatch : Option Text}
    (h : checkWritePreconditions current ifNoneMatch ifMatch = .error e) : noForeignKey e := by
  unfold checkWritePreconditions at h
  simp only at h
  split_ifs at h <;> cases h <;> exact SqlState.noConfusion

theorem hasBlob_overlay_cases {ws : List CatalogWrite} {s : Catalog}
    (h : (overlay ws s).HasBlob k) : s.HasBlob k ∨ ∃ size, .insertBlob k size ∈ ws := by
  induction ws generalizing s with
  | nil => exact Or.inl h
  | cons x ws ih =>
    rcases ih (s := x.apply s) h with hold | ⟨size, hmem⟩
    · cases x with
      | insertBlob k' size =>
        rcases hold with ⟨b, hb, rfl⟩
        rcases List.mem_append.mp hb with hb | hb
        · exact Or.inl ⟨b, hb, rfl⟩
        · rw [List.mem_singleton.mp hb]
          exact Or.inr ⟨size, List.mem_cons_self⟩
      | _ => exact Or.inl hold
    · exact Or.inr ⟨size, List.mem_cons_of_mem _ hmem⟩

section Settled

variable (h : Settled counted l W c)

include h

/-- Under a lifecycle lock of its name, the bucket that is found stays. -/
theorem goes_bucketIdOf {ctx : Context}
    (hkeeps : ∀ x, W x → x.KeepsBuckets) (hlocked : Locked c.held name) :
    Goes counted c (bucketIdOf ctx name) l W fun id c' =>
      ∃ b, b.bucketId = id ∧ b.name = name ∧ Child b c' := by
  unfold bucketIdOf
  have hview : Goes counted c view l W fun s c' => ∀ b, s.visible ctx name = some b →
      b.name = name ∧ Child b c' := by
    apply goes_view h
    intro s _ hs
    refine ⟨fun s' => ∀ b ∈ s.visible ctx name, b ∈ s'.bucket, ?_, ?_, ?_⟩
    · intro b hb
      exact (Catalog.visible_some hb).1
    · intro s₁ s₂ henv hs₁ b hb
      have hname := (Catalog.visible_some hb).2
      exact stable_bucket (hname ▸ hlocked) s₁ s₂ henv (hs₁ b hb)
    · intro b hb
      have hname := (Catalog.visible_some hb).2
      refine ⟨hname, hname ▸ hlocked, ?_⟩
      intro s' hs'
      apply hs'.2 b
      unfold Catalog.visible at hb ⊢
      rwa [h.bucket_eq hkeeps s] at hb
  refine hview.bind ?_
  intro s c₁ hc₁ _ hfound
  refine Goes.bind (goes_orRaise (F := fun b c' => b.name = name ∧ Child b c') hc₁
    (noForeignKey_noSuchBucket name) hfound) ?_
  rintro b c₂ hc₂ _ ⟨hname, hchild⟩
  exact goes_pure hc₂ ⟨b, rfl, hname, hchild⟩

include hcounted in
theorem goes_bucketIdForChild {ctx : Context} {expected : Option Nat}
    (hW : Allowed W) (hl : l ⊆ l') (hmem : (.lifecycle name, .shared) ∈ l')
    (hready : Had c (.lifecycle name) .shared ∨ Admits l (.lifecycle name)) :
    Goes counted c (bucketIdForChild ctx name expected) l' W fun id c' =>
      (∃ b, b.bucketId = id ∧ b.name = name ∧ Child b c') ∧ (∀ e ∈ expected, id = e) ∧
        Had c' (.lifecycle name) .shared := by
  unfold bucketIdForChild lockBucketLifecycle
  refine Goes.bind (goes_lock (a := .lifecycle name) hcounted h hl hmem hready) ?_
  intro _ c₁ hc₁ _ hhad
  refine Goes.bind (goes_bucketIdOf hc₁ hW.keeps hhad.locked) ?_
  intro id c₂ hc₂ hgrows₂ hb
  refine keeps_unless (fun _ => noForeignKey_noSuchBucket name) fun hexpected => ?_
  refine goes_pure hc₂ ⟨hb, ?_, hhad.mono hgrows₂⟩
  intro e he
  by_contra hne
  exact hexpected ⟨e, he, hne⟩

theorem goes_validateKey : Goes counted c (validateKey key) l W fun _ c' => c' = c :=
  goes_check h SqlState.noConfusion

theorem goes_validateBucketName : Goes counted c (validateBucketName name) l W fun _ c' => c' = c :=
  goes_check h SqlState.noConfusion

theorem goes_checkLatest {id : Nat} {ifNoneMatch ifMatch : Option Text}
    :
    Goes counted c (checkLatest id key ifNoneMatch ifMatch) l W fun _ c' => c' = c := by
  unfold checkLatest
  refine keeps_look h fun s _ => ?_
  exact goes_ofExcept h (fun e he => checkWritePreconditions_error he) fun _ _ => rfl

/-! ## 4. Blobs -/

theorem goes_see : Goes counted c view l W fun s c' => c'.writes = c.writes ∧
      (∃ s₀, s₀.Valid ∧ c.knows s₀ ∧ s = overlay c.writes s₀) ∧
      ∀ k, s.HasBlob k → KnowsBlob c' k := by
  apply goes_view h
  intro s hvalid hs
  refine ⟨fun s' => ∀ k, s.HasBlob k → s'.HasBlob k, fun k hk => hk, ?_, rfl, ⟨s, hvalid, hs, rfl⟩, ?_⟩
  · intro s₁ s₂ henv hs₁ k hk
    exact stable_blob s₁ s₂ henv (hs₁ k hk)
  · intro k hk
    rcases hasBlob_overlay_cases hk with hk | ⟨size, hmem⟩
    · exact Or.inl fun s' hs' => hs'.2 k hk
    · exact Or.inr ⟨size, hmem⟩

theorem goes_checkBlobKey {constraint : String} (hk : KnowsBlob c k) :
    Goes counted c (checkBlobKey k constraint) l W fun _ _ => True := by
  unfold checkBlobKey
  refine Goes.bind (goes_row h rfl) ?_
  intro _ c₁ hc₁ hgrows₁ _
  have hk₁ := hk.mono hgrows₁
  refine keeps_look hc₁ ?_
  rintro _ ⟨s, _, hs, rfl⟩
  refine goes_raiseIf hc₁ ?_ fun _ => trivial
  intro hnone
  exact absurd hnone (Catalog.hasBlob_iff.mp (hk₁.overlay hs))

theorem goes_updateRefcount : Goes counted c (updateRefcount k) l W fun _ _ => True :=
  goes_row h rfl

theorem goes_updateRefcounts {ks : List Bytes} :
    Goes counted c (each updateRefcount ks) l W fun _ _ => True :=
  goes_each h trivial fun _ _ _ hc _ => goes_updateRefcount hc

theorem goes_claimBlob (hW : Allowed W) :
    Goes counted c (claimBlob k size) l W fun _ c' => KnowsBlob c' k := by
  unfold claimBlob
  refine Goes.bind (goes_row h rfl) ?_
  intro _ c₁ hc₁ _ _
  refine Goes.bind (goes_see hc₁) ?_
  rintro s c₂ hc₂ _ ⟨_, _, hblobs⟩
  cases hsize : s.sizeOf k with
  | none =>
    have hemit : Goes counted c₂ (emit (.insertBlob k size)) l W fun _ c' => KnowsBlob c' k := by
      refine goes_emit hc₂ (hW.harmless _ trivial) (fun _ hk => absurd hk List.not_mem_nil) ?_
      exact Or.inr ⟨size, List.mem_append_right _ (List.mem_singleton_self _)⟩
    exact Goes.bind hemit fun _ c₃ hc₃ _ hk => goes_pure hc₃ hk
  | some existing =>
    have hk : KnowsBlob c₂ k := hblobs k (Catalog.hasBlob_iff.mpr (by rw [hsize]; intro h; cases h))
    refine keeps_check SqlState.noConfusion ?_
    exact goes_pure hc₂ hk

theorem goes_ensureBlob (hW : Allowed W) :
    Goes counted c (ensureBlob k size) l W fun k' c' => k' = k ∧ KnowsBlob c' k :=
  Goes.bind (goes_claimBlob h hW) fun _ _ hc _ hk => goes_pure hc ⟨rfl, hk⟩

theorem goes_insertBlobExtent {source : Bytes} (hk : KnowsBlob c k) (hsource : KnowsBlob c source) :
    Goes counted c (insertBlobExtent k source) l W fun _ _ => True := by
  unfold insertBlobExtent
  refine keeps_check SqlState.noConfusion ?_
  refine Goes.bind (goes_checkBlobKey h hk) ?_
  intro _ c₂ hc₂ hgrows₂ _
  refine Goes.bind (goes_checkBlobKey hc₂ (hsource.mono hgrows₂)) ?_
  intro _ c₃ hc₃ _ _
  exact goes_updateRefcount hc₃

theorem goes_storeComposite {sources : List Bytes} (hW : Allowed W)
    (hsources : ∀ x ∈ sources, KnowsBlob c x) :
    Goes counted c (storeComposite k size sources) l W fun k' c' => k' = k ∧ KnowsBlob c' k := by
  unfold storeComposite
  refine Goes.bind (goes_claimBlob h hW) ?_
  intro inserted c₁ hc₁ hgrows₁ hk
  have hextents : Goes counted c₁ (whenever (inserted = true) (each (insertBlobExtent k) sources))
      l W fun _ c' => KnowsBlob c' k := by
    apply Call.obeys_whenever
    · intro _
      -- what is known of the blob and of its sources is all that a turn needs
      have hloop : Goes counted c₁ (each (insertBlobExtent k) sources) l W fun _ c' =>
          KnowsBlob c' k ∧ ∀ x ∈ sources, KnowsBlob c' x := by
        apply goes_each hc₁ ⟨hk, fun x hx => (hsources x hx).mono hgrows₁⟩
        rintro x hx c' hc' ⟨hk', hsources'⟩
        refine (goes_insertBlobExtent hc' hk' (hsources' x hx)).imp ?_
        intro _ c'' _ hgrows _
        exact ⟨hk'.mono hgrows, fun y hy => (hsources' y hy).mono hgrows⟩
      exact hloop.imp fun _ _ _ _ hI => hI.1
    · exact fun _ => ⟨hc₁, Grows.refl _, hk⟩
  exact Goes.bind hextents fun _ _ hc _ hk => goes_pure hc ⟨rfl, hk⟩

theorem goes_ensureStagedBlob {u : Uuid} {part : Nat} (hW : Allowed W) :
    Goes counted c (ensureStagedBlob k size u part) l W fun k' c' => k' = k ∧ KnowsBlob c' k := by
  unfold ensureStagedBlob
  refine Goes.bind (goes_see h) ?_
  rintro s c₁ hc₁ _ ⟨_, ⟨s₀, hvalid, _, rfl⟩, hblobs⟩
  refine keeps_check SqlState.noConfusion ?_
  apply goes_storeComposite hc₁ hW
  intro x hx
  rcases List.mem_map.mp hx with ⟨r, hr, rfl⟩
  have hrow := uploadChunk_overlay (List.mem_filter.mp ((mem_orderBy _).mp hr)).1
  exact hblobs _ (hasBlob_overlay (hvalid.chunkBlobs r hrow))

theorem goes_ensureCompositeBlob {u : Uuid} {parts : List Nat}
    (hW : Allowed W) : Goes counted c (ensureCompositeBlob k size u parts) l W fun k' c' =>
      k' = k ∧ KnowsBlob c' k := by
  unfold ensureCompositeBlob
  refine Goes.bind (goes_see h) ?_
  rintro s c₁ hc₁ _ ⟨_, ⟨s₀, hvalid, _, rfl⟩, hblobs⟩
  refine keeps_check SqlState.noConfusion ?_
  apply goes_storeComposite hc₁ hW
  intro x hx
  rcases List.mem_map.mp hx with ⟨p, hp, rfl⟩
  rcases List.mem_filterMap.mp hp with ⟨n, _, hfind⟩
  have hrow := uploadPart_overlay (List.mem_of_find?_eq_some hfind)
  exact hblobs _ (hasBlob_overlay (hvalid.partBlobs p hrow))

end Settled

/-! ## 5. Publication -/

/-- A write of a call that adds children to one bucket only. -/
def ChildWrite (b : BucketRow) : CatalogWrite → Prop
  | .insertBucket _ | .deleteBucket _ => False
  | .insertObjects name rows => name = b.name ∧ ∀ o ∈ rows, o.bucketId = b.bucketId
  | .insertUpload row => row.bucketId = b.bucketId
  | _ => True

theorem allowed_harmless : Allowed Harmless where
  keeps := by
    intro x hx
    cases x <;> first | exact trivial | exact hx.elim
  harmless := fun _ hx => hx

theorem allowed_childWrite (b : BucketRow) : Allowed (ChildWrite b) where
  keeps := by
    intro x hx
    cases x <;> first | exact trivial | exact hx.elim
  harmless := by
    intro x hx
    cases x <;> first | exact trivial | exact hx.elim

theorem Child.bucket {s : Catalog} (h : Child b c) (hsettled : Settled counted l (ChildWrite b) c)
    (hs : c.knows s) : b ∈ (overlay c.writes s).bucket := by
  rw [hsettled.bucket_eq (allowed_childWrite b).keeps]
  exact h.found s hs

variable {b : BucketRow} {ctx : Context}

theorem Settled.child (h : Settled counted l Harmless c) (b : BucketRow) :
    Settled counted l (ChildWrite b) c :=
  h.mono (List.Subset.refl _) (allowed_childWrite b).harmless

theorem goes_insertObject {row : ObjectRow} (h : Settled counted l (ChildWrite b) c)
    (hchild : Child b c) (hid : row.bucketId = b.bucketId)
    (hblob : ∀ k ∈ row.blobId, KnowsBlob c k) :
    Goes counted c (insertObject b.name row) l (ChildWrite b) fun _ _ => True := by
  have hrow : ChildWrite b (.insertObjects b.name [row]) := by
    refine ⟨rfl, ?_⟩
    intro o ho
    rw [List.mem_singleton.mp ho]
    exact hid
  unfold insertObject
  refine keeps_look h ?_
  rintro _ ⟨s, _, hs, rfl⟩
  refine keeps_unless (fun hmissing => ?_) fun _ => ?_
  · exact absurd hid.symm (hmissing b (hchild.bucket h hs))
  cases hpayload : row.blobId with
  | none =>
    refine goes_emit h hrow ?_ trivial
    intro k hk
    simp [CatalogWrite.blobs, hpayload] at hk
  | some k =>
    have hk : KnowsBlob c k := hblob k (by rw [hpayload]; rfl)
    refine Goes.bind (goes_checkBlobKey h hk) ?_
    intro _ c₃ hc₃ hgrows₃ _
    refine Goes.bind (goes_updateRefcount hc₃) ?_
    intro _ c₄ hc₄ hgrows₄ _
    refine goes_emit hc₄ hrow ?_ trivial
    intro k' hk'
    have heq : k' = k := by simpa [CatalogWrite.blobs, hpayload] using hk'
    rw [heq]
    exact (hk.mono hgrows₃).mono hgrows₄

theorem goes_insertLatest {payload : Option Payload} {contentType : Option Text}
    {metadata : Jsonb} (h : Settled counted l (ChildWrite b) c) (hchild : Child b c)
    (hblob : ∀ p ∈ payload, KnowsBlob c p.sha256) :
    Goes counted c (insertLatest ctx b.bucketId b.name key payload contentType metadata) l
      (ChildWrite b) fun _ _ => True := by
  unfold insertLatest
  refine keeps_look h fun s _ => ?_
  refine Goes.bind (goes_plain h trivial rfl) ?_
  intro _ c₂ hc₂ hgrows₂ _
  refine Goes.bind (goes_next (F := fun _ _ => True) hc₂ fun _ => trivial) ?_
  intro versionId c₃ hc₃ hgrows₃ _
  have hgrows := hgrows₂.trans hgrows₃
  apply goes_insertObject hc₃ (hchild.mono hgrows) rfl
  intro k hk
  rcases Option.map_eq_some_iff.mp hk with ⟨p, hp, rfl⟩
  exact (hblob p hp).mono hgrows

theorem goes_removeVersion {id : Nat} {v : Int} (h : Settled counted l W c) (hW : Allowed W) :
    Goes counted c (removeVersion id key v) l W fun _ _ => True := by
  unfold removeVersion
  refine keeps_look h fun s _ => ?_
  cases hfind : s.object.find? (isVersionOf id key v) with
  | none => exact goes_pure h trivial
  | some deleted =>
    refine Goes.bind (goes_plain h (hW.harmless _ trivial) rfl) ?_
    intro _ c₂ hc₂ _ _
    refine Goes.bind (goes_updateRefcounts hc₂) ?_
    intro _ c₃ hc₃ _ _
    apply Call.obeys_whenever
    · intro _
      refine keeps_look hc₃ fun s' _ => ?_
      exact goes_emit hc₃ (hW.harmless _ trivial) (fun _ hk => absurd hk List.not_mem_nil) trivial
    · exact fun _ => ⟨hc₃, Grows.refl _, trivial⟩

include hcounted in
theorem goes_lockKey {id : Nat} (h : Settled counted l W c) (hl : l ⊆ l')
    (hmem : (.key id key, .exclusive) ∈ l')
    (hready : Had c (.key id key) .exclusive ∨ Admits l (.key id key)) :
    Goes counted c (lockKey id key) l' W fun _ c' => Had c' (.key id key) .exclusive :=
  goes_lock hcounted h hl hmem hready

include hcounted in
theorem goes_deleteFrom {version : Option Int} (h : Settled counted l (ChildWrite b) c)
    (hchild : Child b c) (hl : l ⊆ l') (hmem : (.key b.bucketId key, .exclusive) ∈ l')
    (hready : Had c (.key b.bucketId key) .exclusive ∨ Admits l (.key b.bucketId key)) :
    Goes counted c (deleteFrom ctx b.bucketId b.name key version) l' (ChildWrite b)
      fun _ _ => True := by
  unfold deleteFrom
  refine (goes_validateKey h).still fun _ => ?_
  refine Goes.bind (goes_lockKey hcounted h hl hmem hready) ?_
  intro _ c₂ hc₂ hgrows₂ _
  cases version with
  | none =>
    apply goes_insertLatest hc₂ (hchild.mono hgrows₂)
    intro p hp
    cases hp
  | some v => exact goes_removeVersion hc₂ (allowed_childWrite b)

end Pgs3.Concurrent
