import Pgs3.Reading

/-!
# Storing true content

`Sound H P m Q` is a triple for transactions: if `ContentInv` and `P` hold before `m` and no
two strings hashed up to its end collide, then `ContentInv` and `Q` hold after it.  What
was hashed is never forgotten (`Sound.mono`), so the assumption at the end of a sequence
also holds in the middle.

The triples for the storing functions say what they store.
-/

namespace Pgs3

open Foundation Foundation.Tx Foundation.Extents

/-! ## 1. Triples -/

structure Sound {α : Type} (H : Digests) (P : Db → Prop) (m : DbTx α) (Q : α → Db → Prop) :
    Prop where
  mono : ∀ s a s', Yields m s a s' → ∀ x ∈ s.hashed, x ∈ s'.hashed
  keeps : ∀ s a s', Yields m s a s' → NoCollision H s'.hashed → ContentInv H s → P s →
    ContentInv H s' ∧ Q a s'

namespace Sound

variable {α β : Type} {H : Digests} {P P' : Db → Prop} {m : DbTx α} {Q Q' : α → Db → Prop}

theorem bind {f : α → DbTx β} {R : β → Db → Prop} (hm : Sound H P m Q)
    (hf : ∀ a, Sound H (Q a) (f a) R) : Sound H P (m >>= f) R where
  mono := by
    intro s b s' h x hx
    obtain ⟨a, s₁, hm', hf'⟩ := yields_bind.mp h
    exact (hf a).mono _ _ _ hf' x (hm.mono _ _ _ hm' x hx)
  keeps := by
    intro s b s' h hno hinv hP
    obtain ⟨a, s₁, hm', hf'⟩ := yields_bind.mp h
    obtain ⟨hinv₁, hQ⟩ := hm.keeps _ _ _ hm' (hno.mono ((hf a).mono _ _ _ hf')) hinv hP
    exact (hf a).keeps _ _ _ hf' hno hinv₁ hQ

theorem conseq (h : Sound H P m Q) (hP : ∀ s, ContentInv H s → P' s → P s)
    (hQ : ∀ a s, ContentInv H s → Q a s → Q' a s) : Sound H P' m Q' where
  mono := h.mono
  keeps := by
    intro s a s' hy hno hinv hP'
    obtain ⟨hinv', hQa⟩ := h.keeps s a s' hy hno hinv (hP s hinv hP')
    exact ⟨hinv', hQ a s' hinv' hQa⟩

theorem pre (h : Sound H P m Q) (hP : ∀ s, ContentInv H s → P' s → P s) : Sound H P' m Q :=
  h.conseq hP fun _ _ _ => id

/-- On the way in, what was hashed so far does not collide either. -/
theorem pre_of_noCollision (h : Sound H P m Q)
    (hP : ∀ s, NoCollision H s.hashed → ContentInv H s → P' s → P s) : Sound H P' m Q where
  mono := h.mono
  keeps := by
    intro s a s' hy hno hinv hP'
    exact h.keeps s a s' hy hno hinv (hP s (hno.mono (h.mono s a s' hy)) hinv hP')

theorem post (h : Sound H P m Q) (hQ : ∀ a s, Q a s → Q' a s) : Sound H P m Q' :=
  h.conseq (fun _ _ => id) fun a s _ => hQ a s

theorem exists_elim {ι : Type} {R : ι → Db → Prop} (h : ∀ i, Sound H (R i) m Q)
    (hne : Nonempty ι) : Sound H (fun s => ∃ i, R i s) m Q where
  mono := (h hne.some).mono
  keeps := by
    rintro s a s' hy hno hinv ⟨i, hi⟩
    exact (h i).keeps s a s' hy hno hinv hi

theorem fact {φ : Prop} (h : Sound H P m Q) :
    Sound H (fun s => φ ∧ P s) m fun a s => φ ∧ Q a s where
  mono := h.mono
  keeps := by
    rintro s a s' hy hno hinv ⟨hφ, hP⟩
    obtain ⟨hinv', hQ⟩ := h.keeps s a s' hy hno hinv hP
    exact ⟨hinv', hφ, hQ⟩

theorem pure {a : α} : Sound H (Q a) (pure a : DbTx α) Q where
  mono := by
    intro s b s' h x hx
    obtain ⟨_, rfl⟩ := yields_pure.mp h
    exact hx
  keeps := by
    intro s b s' h _ hinv hP
    obtain ⟨rfl, rfl⟩ := yields_pure.mp h
    exact ⟨hinv, hP⟩

theorem readOnly (hm : ∀ s a s', Yields m s a s' → s' = s)
    (hQ : ∀ s a, Yields m s a s → P s → Q a s) : Sound H P m Q where
  mono := by
    intro s a s' h x hx
    rw [hm s a s' h]
    exact hx
  keeps := by
    intro s a s' h _ hinv hP
    obtain rfl := hm s a s' h
    exact ⟨hinv, hQ _ a h hP⟩

theorem get : Sound H P (get : DbTx Db) fun a s => a = s ∧ P s :=
  readOnly (fun _ _ _ h => (yields_get.mp h).2) fun _ _ h hP => ⟨(yields_get.mp h).1, hP⟩

theorem raiseIf {p : Prop} [Decidable p] {e : PgError} :
    Sound H P (raiseIf p e) fun _ s => ¬ p ∧ P s :=
  readOnly (fun _ _ _ h => (yields_raiseIf.mp h).2) fun _ _ h hP => ⟨(yields_raiseIf.mp h).1, hP⟩

theorem orRaise {o : Option α} {e : PgError} :
    Sound H P (orRaise o e) fun a s => o = some a ∧ P s :=
  readOnly (fun _ _ _ h => (yields_orRaise.mp h).2) fun _ _ h hP => ⟨(yields_orRaise.mp h).1, hP⟩

theorem reading {f : Db → Except PgError α} : Sound H P (reading f) fun a s => f s = .ok a ∧ P s :=
  readOnly (fun _ _ _ h => (yields_reading.mp h).2) fun _ _ h hP => ⟨(yields_reading.mp h).1, hP⟩

theorem ite {p : Prop} [Decidable p] {m' : DbTx α} (h : p → Sound H P m Q)
    (h' : ¬ p → Sound H P m' Q) : Sound H P (if p then m else m') Q := by
  by_cases hp : p
  · rw [if_pos hp]
    exact h hp
  · rw [if_neg hp]
    exact h' hp

/-- Hashing keeps the invariant; its result may use that nothing collides. -/
theorem hashing (hm : Built Hashing m)
    (hQ : ∀ s a s', Yields m s a s' → OnlyHashes s s' → NoCollision H s'.hashed →
      ContentInv H s → P s → Q a s') : Sound H P m Q where
  mono := fun _ _ _ h => (onlyHashes hm h).grows
  keeps := by
    intro s a s' h hno hinv hP
    have ho := onlyHashes hm h
    exact ⟨ho.keeps hinv, hQ s a s' h ho hno hinv hP⟩

theorem quiet (hm : Built Quiet m) : Sound H P m fun _ _ => True where
  mono := by
    intro s a s' h x hx
    rw [(built_leavesBlobs hm h).hashed]
    exact hx
  keeps := fun _ _ _ h _ hinv _ => ⟨(built_leavesBlobs hm h).keeps hinv, trivial⟩

end Sound

/-! ## 2. Storing -/

variable {gone : String} {s s' : Db}

theorem yields_claimBlob {row : BlobRow} {r : Nat × BlobStorage}
    (h : Yields (claimBlob row gone) s r s') : (r.1 = 0 ∧ s' = s ∧ s.HasBlob row.sha256) ∨
      (r = (1, row.storage) ∧ ¬ s.HasBlob row.sha256 ∧
        ∃ blob, blob.rows = s.blob.rows ++ [row] ∧ s' = { s with blob := blob }) := by
  obtain ⟨n, s₁, hins, hrest⟩ := yields_bind.mp h
  simp only [yields_get_bind, yields_orRaise_bind, yields_raiseIf_bind, yields_pure] at hrest
  obtain ⟨b, hb, _, rfl, rfl⟩ := hrest
  rcases yields_insertBlob hins with ⟨rfl, rfl, hhas⟩ | ⟨rfl, hfresh, blob, hrows, rfl⟩
  · exact Or.inl ⟨rfl, rfl, hhas⟩
  · have hrow : row ∈ blob.rows := by simp [hrows]
    have hlook : blob.lookup row.sha256 = some row := Table.lookup_of_mem hrow
    rw [show (_ : Db).blob.lookup row.sha256 = some row from hlook] at hb
    obtain rfl := Option.some.inj hb
    exact Or.inr ⟨rfl, hfresh, blob, hrows, rfl⟩

variable {body : Bytes} {n : Nat}

theorem bodyChunks_eq (k : Bytes) (hbody : 0 < body.length) :
    bodyChunks k body n = (List.range ((body.length - 1) / n + 1)).map fun i =>
      ⟨k, i, (body.drop (i * n)).take n⟩ := by
  unfold bodyChunks
  split
  · rename_i hle
    have hzero : (body.length - 1) / n = 0 := Nat.div_eq_of_lt (by omega)
    simp [hzero, List.take_of_length_le hle]
  · rfl

variable {k : Bytes}

theorem bodyChunks_content (hbody : 0 < body.length) (hn : 0 < n) :
    (bodyChunks k body n).flatMap (·.data) = body := by
  rw [bodyChunks_eq k hbody, List.flatMap_def, List.map_map]
  exact flatten_pieces_all body hn

theorem bodyChunks_layout {b : BlobRow} (hbody : 0 < body.length) (hn : 0 < b.chunkSize)
    (hsize : b.size = body.length) :
    ChunkLayout b (bodyChunks k body b.chunkSize) where
  dense := by
    rw [bodyChunks_eq k hbody, List.map_map, List.length_map, List.length_range]
    exact List.map_id _
  split := by
    intro r hr
    rw [bodyChunks_eq k hbody] at hr
    obtain ⟨i, hi, rfl⟩ := List.mem_map.mp hr
    have hi : i ≤ (body.length - 1) / b.chunkSize := Nat.lt_succ_iff.mp (List.mem_range.mp hi)
    have hmul := (Nat.le_div_iff_mul_le hn).mp hi
    refine ⟨by show i * b.chunkSize < b.size; omega, ?_⟩
    rw [List.length_take, List.length_drop, hsize]
  total := by
    have h := congrArg List.length (bodyChunks_content (k := k) hbody hn)
    rw [List.length_flatMap] at h
    rw [h, hsize]

theorem bodyChunks_sorted (k : Bytes) (hbody : 0 < body.length) :
    (bodyChunks k body n).Pairwise fun a b => a.seq ≤ b.seq := by
  rw [bodyChunks_eq k hbody, List.pairwise_map]
  exact List.pairwise_lt_range.imp Nat.le_of_lt

theorem mem_bodyChunks (hbody : 0 < body.length) {r : ChunkRow} (hr : r ∈ bodyChunks k body n) :
    r.blobId = k := by
  rw [bodyChunks_eq k hbody] at hr
  obtain ⟨i, _, rfl⟩ := List.mem_map.mp hr
  rfl

variable {sha256 : Bytes}

/-- `_ensure_blob` finds the digest taken, or adds a blob whose rows hold the body. -/
theorem yields_ensureBlob {c : Context} {id : Bytes}
    (h : Yields (ensureBlob c sha256 body) s id s') :
    id = sha256 ∧ ((s' = s ∧ s.HasBlob sha256) ∨ ∃ row cs, Adds s s' row cs [] ∧
      row.sha256 = sha256 ∧ row.size = body.length ∧ ((row.storage = .inline body ∧ cs = []) ∨
        (row.storage = .chunked ∧ 0 < body.length ∧ 0 < row.chunkSize ∧
          cs = bodyChunks sha256 body row.chunkSize))) := by
  simp only [ensureBlob, checkChunkSize, yields_raiseIf_bind] at h
  obtain ⟨_, hsize, h⟩ := h
  obtain ⟨claimed, s₁, hclaim, hrest⟩ := yields_bind.mp h
  obtain ⟨_, s₂, hchunks, hend⟩ := yields_bind.mp hrest
  obtain ⟨rfl, rfl⟩ := yields_pure.mp hend
  refine ⟨rfl, ?_⟩
  rcases yields_claimBlob hclaim with ⟨hzero, rfl, hhas⟩ | ⟨rfl, hfresh, blob, hrows, rfl⟩
  · refine Or.inl ⟨?_, hhas⟩
    rcases yields_whenever.mp hchunks with ⟨hone, _⟩ | ⟨_, rfl⟩
    · exact absurd (hzero.symm.trans hone.1) (by simp)
    · rfl
  · refine Or.inr ?_
    by_cases hinline : (body.length : Int) ≤ max c.inlineThreshold 0
    · rw [if_pos hinline] at hchunks hrows
      rcases yields_whenever.mp hchunks with ⟨hstored, _⟩ | ⟨_, rfl⟩
      · exact absurd hstored.2.1 (by simp)
      · refine ⟨⟨id, body.length, c.chunkSize.toNat, .inline body, 0, c.now⟩, [],
          ⟨hfresh, hrows, by simp, by simp, by simp, by simp, by simp, rfl⟩, rfl, rfl, ?_⟩
        exact Or.inl ⟨rfl, rfl⟩
    · rw [if_neg hinline] at hchunks hrows
      -- an empty body is inline whatever the threshold
      have hbody : 0 < body.length := by
        have := le_max_right c.inlineThreshold 0
        omega
      have hn : 0 < c.chunkSize.toNat := by omega
      rcases yields_whenever.mp hchunks with ⟨_, hins⟩ | ⟨hno, _⟩
      · obtain ⟨_, chunk, hchunk, rfl⟩ := yields_insertChunks hins
        refine ⟨⟨id, body.length, c.chunkSize.toNat, .chunked, 0, c.now⟩, _,
          ⟨hfresh, hrows, hchunk, by simp, fun r hr => mem_bodyChunks hbody hr, by simp, by simp,
            rfl⟩, rfl, rfl, ?_⟩
        exact Or.inr ⟨rfl, hbody, hn, rfl⟩
      · exact absurd ⟨rfl, rfl, hbody⟩ hno

theorem ensureBlob_sound {H : Digests} {c : Context} :
    Sound H (fun s => sha256 = H.sha256 body ∧ body ∈ s.hashed) (ensureBlob c sha256 body)
      fun id s' => id = sha256 ∧ s'.Holds sha256 body where
  mono := by
    intro s id s' h x hx
    rcases (yields_ensureBlob h).2 with ⟨rfl, _⟩ | ⟨row, cs, hadds, _⟩
    · exact hx
    · exact hadds.hashed.symm ▸ hx
  keeps := by
    intro s id s' h hno hinv hP
    obtain ⟨rfl, hbody⟩ := hP
    obtain ⟨rfl, hcases⟩ := yields_ensureBlob h
    rcases hcases with ⟨rfl, hhas⟩ | ⟨row, cs, hadds, hsha, hsize, hrows⟩
    · exact ⟨hinv, rfl, hinv.holds_of_digest hno hbody hhas⟩
    · have hlook : s'.blob.lookup row.sha256 = some row := Table.lookup_of_mem hadds.mem_new
      have hnode : s'.node row.sha256 = some (.leaf body) := by
        rcases hrows with ⟨hst, rfl⟩ | ⟨hst, hpos, hn, rfl⟩
        · simp only [Db.node, hlook, Option.map_some, hst]
        · have hchunks := hadds.chunksOf_new hinv (bodyChunks_sorted _ hpos)
          simp only [Db.node, hlook, Option.map_some, hst, hchunks, bodyChunks_content hpos hn]
      have hcontent : Content s'.node row.sha256 body := (content_leaf hnode).mpr rfl
      have hlayout : Layout s' row := by
        unfold Layout
        rcases hrows with ⟨hst, rfl⟩ | ⟨hst, hpos, hn, rfl⟩
        · rw [hst]
          exact hsize.symm
        · rw [hst]
          have hchunks := hadds.chunksOf_new hinv (bodyChunks_sorted _ hpos)
          show ChunkLayout row (s'.chunksOf row.sha256)
          rw [hchunks]
          exact bodyChunks_layout hpos hn hsize
      have hstores : Stores H s' row body :=
        ⟨hcontent, hsize.symm, hsha.symm, hadds.hashed.symm ▸ hbody⟩
      refine ⟨hadds.keeps hinv (Or.inl rfl) hlayout hstores, rfl, ?_⟩
      exact ⟨⟨row, hadds.mem_new, hsha, hsize⟩, hsha ▸ hcontent⟩

/-! ### Composites -/

section ExtentRows

variable (final : Bytes) (offset : Nat) (sources : List (Nat × Bytes × Nat))

theorem extentRows_seq : (extentRows final offset sources).map (·.seq) = sources.map (·.1) := by
  induction sources generalizing offset with
  | nil => rfl
  | cons p rest ih => exact congrArg _ (ih _)

theorem extentRows_length :
    (extentRows final offset sources).map (·.length) = sources.map (·.2.2) := by
  induction sources generalizing offset with
  | nil => rfl
  | cons p rest ih => exact congrArg _ (ih _)

theorem extentRows_extent : (extentRows final offset sources).map (·.extent)
    = sources.map fun p => ⟨p.2.1, 0, p.2.2⟩ := by
  induction sources generalizing offset with
  | nil => rfl
  | cons p rest ih => exact congrArg _ (ih _)

theorem extentRows_contiguous : ContiguousFrom offset (extentRows final offset sources) := by
  induction sources generalizing offset with
  | nil => trivial
  | cons p rest ih => exact ⟨rfl, ih _⟩

variable {final offset sources}

theorem mem_extentRows {e : BlobExtentRow} (he : e ∈ extentRows final offset sources) :
    e.finalBlobId = final ∧ e.sourceOffset = 0 ∧ ∃ p ∈ sources, e.sourceBlobId = p.2.1 ∧
      e.length = p.2.2 := by
  induction sources generalizing offset with
  | nil => exact absurd he (by simp [extentRows])
  | cons p rest ih =>
    rcases List.mem_cons.mp he with rfl | he
    · exact ⟨rfl, rfl, p, List.mem_cons_self, rfl, rfl⟩
    · obtain ⟨hf, ho, q, hq, hrest⟩ := ih he
      exact ⟨hf, ho, q, List.mem_cons_of_mem _ hq, hrest⟩

end ExtentRows

theorem yields_storeComposite {c : Context} {id : Bytes} {size : Nat}
    {sources : List (Nat × Bytes × Nat)}
    (h : Yields (storeComposite c sha256 size gone sources) s id s') :
    id = sha256 ∧ ((s' = s ∧ s.HasBlob sha256) ∨ ∃ row t d,
      Adds s t row [] (extentRows sha256 0 sources) ∧ s' = t.addRefs d ∧ row.sha256 = sha256 ∧
      row.size = size ∧ row.storage = .composite) := by
  obtain ⟨claimed, s₁, hclaim, hrest⟩ := yields_bind.mp h
  obtain ⟨_, s₂, hextents, hend⟩ := yields_bind.mp hrest
  obtain ⟨rfl, rfl⟩ := yields_pure.mp hend
  refine ⟨rfl, ?_⟩
  rcases yields_claimBlob hclaim with ⟨hzero, rfl, hhas⟩ | ⟨rfl, hfresh, blob, hrows, rfl⟩
  · refine Or.inl ⟨?_, hhas⟩
    rcases yields_whenever.mp hextents with ⟨hone, _⟩ | ⟨_, rfl⟩
    · exact absurd (hzero.symm.trans hone) (by simp)
    · rfl
  · refine Or.inr ?_
    rcases yields_whenever.mp hextents with ⟨_, hins⟩ | ⟨hno, _⟩
    · obtain ⟨hfk, blobExtent, hext, rfl⟩ := yields_insertBlobExtents hins
      refine ⟨⟨id, size, c.chunkSize.toNat, .composite, 0, c.now⟩,
        { s with blob := blob, blobExtent := blobExtent }, _,
        ⟨hfresh, hrows, by simp, hext, by simp, fun e he => (mem_extentRows he).1,
          fun e he => ?_, rfl⟩, rfl, rfl, rfl, rfl⟩
      -- the new blob itself is ruled out as a source by the check constraint
      obtain ⟨hself, _, b, hb, hsource⟩ := hfk e he
      rcases List.mem_append.mp (hrows ▸ hb) with hb | hb
      · exact ⟨b, hb, hsource⟩
      · rw [List.mem_singleton.mp hb] at hsource
        exact absurd ((mem_extentRows he).1.trans hsource) hself
    · exact absurd rfl hno

theorem storeComposite_sound {H : Digests} {c : Context} {size : Nat}
    {sources : List (Nat × Bytes × Nat)} {cs : List Bytes}
    (hseq : sources.map (·.1) = List.range sources.length) :
    Sound H (fun s => sha256 = H.sha256 cs.flatten ∧ size = cs.flatten.length ∧
        cs.flatten ∈ s.hashed ∧
        List.Forall₂ (fun p d => s.Holds p.2.1 d ∧ p.2.2 = d.length) sources cs)
      (storeComposite c sha256 size gone sources)
      fun id s' => id = sha256 ∧ s'.Holds sha256 cs.flatten where
  mono := by
    intro s id s' h x hx
    rcases (yields_storeComposite h).2 with ⟨rfl, _⟩ | ⟨row, t, d, hadds, rfl, _⟩
    · exact hx
    · exact hadds.hashed.symm ▸ hx
  keeps := by
    intro s id s' h hno hinv hP
    obtain ⟨rfl, rfl, hbody, hsources⟩ := hP
    obtain ⟨rfl, hcases⟩ := yields_storeComposite h
    rcases hcases with ⟨rfl, hhas⟩ | ⟨row, t, d, hadds, rfl, hsha, hsize, hst⟩
    · exact ⟨hinv, rfl, hinv.holds_of_digest hno hbody hhas⟩
    · have hsorted : (extentRows (H.sha256 cs.flatten) 0 sources).Pairwise
          fun a b => a.seq ≤ b.seq := by
        have hrange : ((extentRows (H.sha256 cs.flatten) 0 sources).map (·.seq)).Pairwise
            (· ≤ ·) := by
          rw [extentRows_seq, hseq]
          exact List.pairwise_lt_range.imp Nat.le_of_lt
        exact List.pairwise_map.mp hrange
      have hextents := hadds.extentsOf_new hinv hsorted
      have hlook : t.blob.lookup row.sha256 = some row := Table.lookup_of_mem hadds.mem_new
      have hnode : t.node row.sha256
          = some (.concat (sources.map fun p => ⟨p.2.1, 0, p.2.2⟩)) := by
        simp only [Db.node, hlook, Option.map_some, hst, hextents, extentRows_extent]
      -- the sources keep their contents, and whole sources give the concatenation
      have hold : ∀ k c, s.Holds k c → Content t.node k c := by
        rintro k c ⟨⟨b, hb, hk, _⟩, hc⟩
        exact (hadds.content_old hinv ⟨b, hb, hk⟩).mpr hc
      have hcontent : Content t.node row.sha256 cs.flatten := by
        refine (content_concat hnode).mpr (Gathers.whole ?_)
        rw [List.forall₂_map_left_iff]
        exact hsources.imp fun p d hd => ⟨hold _ _ hd.1, rfl, hd.2⟩
      have hlayout : Layout t row := by
        unfold Layout
        rw [hst]
        show ExtentLayout t row (t.extentsOf row.sha256)
        rw [hextents]
        refine ⟨?_, extentRows_contiguous _ _ _, ?_, ?_⟩
        · have hlen := congrArg List.length
            (extentRows_seq (H.sha256 cs.flatten) 0 sources)
          rw [List.length_map, List.length_map] at hlen
          rw [extentRows_seq, hseq, hlen]
        · rw [extentRows_length, hsize, List.length_flatten]
          exact congrArg List.sum
            (map_eq_map_of_forall₂ (hsources.imp fun p d hd => hd.2))
        · intro e he
          obtain ⟨_, hzero, p, hp, hsource, hlength⟩ := mem_extentRows he
          obtain ⟨d, _, ⟨⟨b, hb, hk, hbsize⟩, _⟩, hpd⟩ := exists_mem_of_forall₂ hsources hp
          refine ⟨b, hadds.mem_old hb, hk.trans hsource.symm, ?_⟩
          exact ⟨hzero, (hlength.trans hpd).trans hbsize.symm⟩
      have hstores : Stores H t row cs.flatten :=
        ⟨hcontent, hsize.symm, hsha.symm, hadds.hashed.symm ▸ hbody⟩
      refine ⟨(hadds.keeps hinv (Or.inr hst) hlayout hstores).addRefs, rfl, ?_, ?_⟩
      · exact ⟨row.addRef d, mem_blob_addRefs.mpr ⟨row, hadds.mem_new, rfl⟩, hsha, hsize⟩
      · rw [node_addRefs, ← hsha]
        exact hcontent

/-! ### References to what is stored -/

variable {c : Bytes}

theorem Db.Holds.addRefs (h : s.Holds k c) (d : Bytes → Int) : (s.addRefs d).Holds k c := by
  obtain ⟨⟨b, hb, hk, hsize⟩, hc⟩ := h
  exact ⟨⟨b.addRef d, mem_blob_addRefs.mpr ⟨b, hb, rfl⟩, hk, hsize⟩, by rwa [node_addRefs]⟩

theorem LeavesBlobs.node (h : LeavesBlobs s s') : s'.node = s.node := by
  obtain ⟨d, hd⟩ := h.blob
  rw [← node_addRefs s d]
  funext j
  simp only [Db.node, Db.chunksOf, Db.extentsOf, hd, h.chunk, h.extent]
  rfl

theorem LeavesBlobs.holds (h : LeavesBlobs s s') (hc : s.Holds k c) : s'.Holds k c := by
  obtain ⟨d, hd⟩ := h.blob
  refine ⟨hd ▸ (hc.addRefs d).1, ?_⟩
  rw [h.node]
  exact hc.2

theorem upsertUploadChunk_sound {H : Digests} {row : UploadChunkRow} :
    Sound H (fun s => s.Holds row.blobId c ∧ row.size = c.length) (upsertUploadChunk row)
      fun _ s' => s'.Holds row.blobId c where
  mono := by
    intro s u s' h x hx
    obtain ⟨_, rfl⟩ := yields_upsertUploadChunk h
    exact hx
  keeps := by
    rintro s u s' h - hinv ⟨hholds, hsize⟩
    obtain ⟨_, rfl⟩ := yields_upsertUploadChunk h
    refine ⟨ContentInv.addRefs (hinv.restage rfl rfl rfl ?_ hinv.parts fun _ => id),
      Db.Holds.addRefs (s := { s with uploadChunk := s.uploadChunk.upsert row }) hholds _⟩
    intro r hr
    rcases Table.mem_upsert.mp hr with rfl | ⟨hr, _⟩
    · obtain ⟨⟨b, hb, hk, hbsize⟩, _⟩ := hholds
      exact ⟨b, hb, hk, hbsize.trans hsize.symm⟩
    · exact hinv.staged r hr

theorem upsertUploadPart_sound {H : Digests} {row : UploadPartRow} :
    Sound H (fun s => s.Holds row.sha256 c ∧ row.size = c.length) (upsertUploadPart row)
      fun _ s' => s'.Holds row.sha256 c where
  mono := by
    intro s u s' h x hx
    obtain ⟨_, rfl⟩ := yields_upsertUploadPart h
    exact hx
  keeps := by
    rintro s u s' h - hinv ⟨hholds, hsize⟩
    obtain ⟨_, rfl⟩ := yields_upsertUploadPart h
    refine ⟨ContentInv.addRefs (hinv.restage rfl rfl rfl hinv.staged ?_ fun _ => id),
      Db.Holds.addRefs (s := { s with uploadPart := s.uploadPart.upsert row }) hholds _⟩
    intro p hp
    rcases Table.mem_upsert.mp hp with rfl | ⟨hp, _⟩
    · obtain ⟨⟨b, hb, hk, hbsize⟩, _⟩ := hholds
      exact ⟨b, hb, hk, hbsize.trans hsize.symm⟩
    · exact hinv.parts p hp

theorem Sound.quiet_holds {α : Type} {H : Digests} {m : DbTx α} (hm : Built Quiet m) :
    Sound H (fun s => s.Holds k c) m fun _ s' => s'.Holds k c where
  mono := (Sound.quiet (H := H) (P := fun _ => True) hm).mono
  keeps := fun _ _ _ h _ hinv hc =>
    ⟨(built_leavesBlobs hm h).keeps hinv, (built_leavesBlobs hm h).holds hc⟩

theorem shallow_mono {α : Type} {m : DbTx α} (hm : Shallow α m) {a : α} (h : Yields m s a s') :
    ∀ x ∈ s.hashed, x ∈ s'.hashed := by
  intro x hx
  cases hm with
  | quiet hq => exact (quiet_leavesBlobs hq h).hashed.symm ▸ hx
  | hashing hh => exact (onlyHashes (.statement hh) h).grows x hx
  | ensureBlob c sha256 body =>
    rcases (yields_ensureBlob h).2 with ⟨rfl, _⟩ | ⟨row, cs, hadds, _⟩
    · exact hx
    · exact hadds.hashed.symm ▸ hx
  | upsertUploadChunk row =>
    obtain ⟨_, rfl⟩ := yields_upsertUploadChunk h
    exact hx
  | upsertUploadPart row _ =>
    obtain ⟨_, rfl⟩ := yields_upsertUploadPart h
    exact hx
  | deleteBlob k =>
    obtain ⟨_, rfl⟩ := yields_deleteBlob h
    exact hx

theorem built_mono {α : Type} {m : DbTx α} (hm : Built Step m) :
    ∀ s a s', Yields m s a s' → ∀ x ∈ s.hashed, x ∈ s'.hashed := by
  intro s a s' h x hx
  refine hm.keeps (I := fun t => x ∈ t.hashed) (fun β f hf t b t' ht hy => ?_) s a s' hx h
  cases hf with
  | shallow hs => exact shallow_mono hs hy x ht
  | storeComposite c sha256 size gone sources =>
    rcases (yields_storeComposite hy).2 with ⟨rfl, _⟩ | ⟨row, u, d, hadds, rfl, _⟩
    · exact ht
    · exact hadds.hashed.symm ▸ ht

theorem Sound.absurd {α : Type} {H : Digests} {P : Db → Prop} {m : DbTx α} {Q : α → Db → Prop}
    (hm : Built Step m) (h : ∀ s, ¬ P s) : Sound H P m Q where
  mono := built_mono hm
  keeps := fun s _ _ _ _ _ hP => (h s hP).elim

end Pgs3
