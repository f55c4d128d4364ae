import Pgs3.ContentCalls

/-!
# Which blobs can be read

`_read_blob` and `_read_blob_range` follow extents through 65 levels, and give the content
of every blob that is not nested more deeply, whatever the extents cut out of their sources
(`readBlobAt_okUnless`, `readBlobRangeAt_okUnless`).  What can still fail is a cast to
`integer`, and only beyond the length of a `bytea`.

The hash helpers follow 64 levels, so a completion that re-reads its sources publishes at
most 65.  A worker-sealed completion does not re-read them, and staged chunks are
deduplicated onto any blob with their digest: it can publish a 66th level.
-/

namespace Pgs3

open Foundation Foundation.Tx Foundation.Extents Relation

variable {b : BlobRow} {c k : Bytes} {H : Digests} {n a z : Nat} {rows : List ChunkRow}

/-! ## 1. Graphs whose blobs are laid out as their rows say -/

def maxBytea : Nat := 1073741823

/-- Extents numbered from 0, contiguous from offset 0, each inside its source. -/
structure ExtentsInside (s : Db) (b : BlobRow) (rows : List BlobExtentRow) : Prop where
  dense : rows.map (·.seq) = List.range rows.length
  contiguous : ContiguousFrom 0 rows
  total : (rows.map (·.length)).sum = b.size
  inside : ∀ e ∈ rows, ∃ source ∈ s.blob.rows, source.sha256 = e.sourceBlobId ∧
    e.sourceOffset + e.length ≤ source.size

def LaidOut (s : Db) (b : BlobRow) : Prop :=
  match b.storage with
  | .inline data => data.length = b.size
  | .chunked => ChunkLayout b (s.chunksOf b.sha256)
  | .composite => ExtentsInside s b (s.extentsOf b.sha256)

/-- Every blob is laid out as its row says, and its expansion ends. -/
structure Expands (s : Db) : Prop where
  laid : ∀ b ∈ s.blob.rows, LaidOut s b
  holds : ∀ b ∈ s.blob.rows, ∃ c, s.Holds b.sha256 c

def Cuts (s : Db) (e : BlobExtentRow) (piece : Bytes) : Prop :=
  ∃ d, s.Holds e.sourceBlobId d ∧ e.sourceOffset + e.length ≤ d.length ∧
    piece = slice d e.sourceOffset e.length

theorem Cuts.length {s : Db} {e : BlobExtentRow} {piece : Bytes} (h : Cuts s e piece) :
    e.length = piece.length := by
  rcases h with ⟨d, _, hfit, rfl⟩
  exact (length_slice hfit).symm

theorem holds_size {s : Db} (hb : b ∈ s.blob.rows) (hc : s.Holds b.sha256 c) :
    b.size = c.length := by
  rcases hc with ⟨⟨b', hb', hk, hsize⟩, _⟩
  obtain rfl := s.blob.eq_of_key_eq hb' hb hk
  exact hsize

theorem gathers_of_cuts {s : Db} {es : List BlobExtentRow} {pieces : List Bytes}
    (h : List.Forall₂ (Cuts s) es pieces) :
    Gathers (Content s.node) (es.map (·.extent)) pieces.flatten := by
  induction h with
  | nil => exact .nil
  | cons h _ ih =>
    rcases h with ⟨d, hd, _, rfl⟩
    exact .cons hd.2 ih

theorem Expands.pieces {s : Db} (hs : Expands s) (hb : b ∈ s.blob.rows)
    (hst : b.storage = .composite) (hc : s.Holds b.sha256 c) :
    ∃ pieces, c = pieces.flatten ∧ List.Forall₂ (Cuts s) (s.extentsOf b.sha256) pieces := by
  have hlaid := hs.laid b hb
  unfold LaidOut at hlaid
  rw [hst] at hlaid
  obtain ⟨pieces, hpieces⟩ : ∃ pieces, List.Forall₂ (Cuts s) (s.extentsOf b.sha256) pieces := by
    apply exists_forall₂
    intro e he
    rcases hlaid.inside e he with ⟨source, hsource, hk, hfit⟩
    rcases hs.holds source hsource with ⟨d, hd⟩
    rw [holds_size hsource hd] at hfit
    exact ⟨_, d, hk ▸ hd, hfit, rfl⟩
  have hnode := node_composite (Table.lookup_of_mem hb) hst
  exact ⟨pieces, Content.unique hc.2 ((content_concat hnode).mpr (gathers_of_cuts hpieces)),
    hpieces⟩

/-- The invariant of the database is more: extents are whole sources. -/
theorem ContentInv.expands {s : Db} (h : ContentInv H s) : Expands s where
  laid := by
    intro b hb
    have hlayout := (h.blobs b hb).1
    unfold Layout at hlayout
    unfold LaidOut
    cases hst : b.storage with
    | inline data => simpa only [hst] using hlayout
    | chunked => simpa only [hst] using hlayout
    | composite =>
      simp only [hst] at hlayout ⊢
      refine ⟨hlayout.dense, hlayout.contiguous, hlayout.total, fun e he => ?_⟩
      rcases hlayout.whole e he with ⟨source, hsource, hk, hzero, hlen⟩
      exact ⟨source, hsource, hk, by omega⟩
  holds := by
    intro b hb
    rcases h.holds hb with ⟨c, hc, _⟩
    exact ⟨c, hc⟩

theorem follows_extent {s : Db} (hb : b ∈ s.blob.rows) (hst : b.storage = .composite)
    {e : BlobExtentRow} (he : e ∈ s.extentsOf b.sha256) (hpos : 0 < e.length) :
    Follows s.node b.sha256 e.sourceBlobId :=
  ⟨_, node_composite (Table.lookup_of_mem hb) hst, e.extent, List.mem_map_of_mem he, hpos, rfl⟩

/-- Under the invariant nothing below a blob is longer than the blob. -/
theorem ContentInv.length_below {s : Db} (h : ContentInv H s) {k' d : Bytes}
    (hreach : ReflTransGen (Follows s.node) k k') (hc : s.Holds k c) (hd : s.Holds k' d) :
    d.length ≤ c.length := by
  induction hreach using ReflTransGen.head_induction_on generalizing c with
  | refl => exact (Content.unique hd.2 hc.2) ▸ Nat.le_refl _
  | head hstep _ ih =>
    rcases hstep with ⟨es, hnode, x, hx, hpos, rfl⟩
    rcases hc with ⟨⟨b, hb, rfl, hsize⟩, hcontent⟩
    -- the node is a composite, and the extent is the whole of its source
    cases hst : b.storage with
    | inline data => rw [node_inline (Table.lookup_of_mem hb) hst] at hnode; cases hnode
    | chunked => rw [node_chunked (Table.lookup_of_mem hb) hst] at hnode; cases hnode
    | composite =>
      rw [node_composite (Table.lookup_of_mem hb) hst] at hnode
      obtain rfl := Node.concat.inj (Option.some.inj hnode)
      rcases List.mem_map.mp hx with ⟨e, he, rfl⟩
      have hlayout := (h.blobs b hb).1
      unfold Layout at hlayout
      rw [hst] at hlayout
      rcases hlayout.whole e he with ⟨source, hsource, hk, _, hlen⟩
      rcases h.holds hsource with ⟨x, hxholds, hxlen, _⟩
      have hle : e.length ≤ b.size := by
        rw [← hlayout.total]
        exact List.le_sum_of_mem (List.mem_map_of_mem he)
      rw [hk] at hxholds
      have hrest := ih hxholds
      omega

/-! ## 2. Reading a whole blob -/

def integerOutOfRange : PgError := ⟨.«22003», "integer out of range", none⟩

theorem int4_okUnless {N : Prop} {n : Int} (hlo : -2147483648 ≤ n) (hN : 2147483647 < n → N) :
    OkUnless N integerOutOfRange n (int4 n) := by
  unfold int4
  split
  · exact Or.inr ⟨hN (by omega), rfl⟩
  · exact OkUnless.ok n

section Read

variable {s : Db}

/-- **Whole reads.**  A blob of at most `n` levels is read with `n` levels left, unless
    something below it is longer than a `bytea`. -/
theorem readBlobAt_okUnless (hs : Expands s) (hn : Within s.node n k) (hc : s.Holds k c) {N : Prop}
    (hN : ∀ k' d, ReflTransGen (Follows s.node) k k' → s.Holds k' d → maxBytea < d.length → N) :
    OkUnless N integerOutOfRange c (readBlobAt s n k) := by
  induction n generalizing k c with
  | zero => exact hn.elim
  | succ n ih =>
    have hcopy := hc
    obtain ⟨⟨b, hb, rfl, hbsize⟩, hcontent⟩ := hc
    have hlook := Table.lookup_of_mem hb
    have hcheck : (if c.length ≠ b.size then
        .error (corrupted ("corrupt blob " ++ String.ofList (hex b.sha256))) else .ok c)
          = (Except.ok c : Except PgError Bytes) := if_neg (by simp [hbsize])
    unfold readBlobAt
    rw [hlook]
    cases hst : b.storage with
    | inline data =>
      obtain rfl := (content_leaf (node_inline hlook hst)).mp hcontent
      simp only [hst]
      apply OkUnless.bind (OkUnless.ok c)
      exact Or.inl hcheck
    | chunked =>
      obtain rfl := (content_leaf (node_chunked hlook hst)).mp hcontent
      simp only [hst]
      apply OkUnless.bind (OkUnless.ok _)
      exact Or.inl hcheck
    | composite =>
      obtain ⟨pieces, hpieces, hcuts⟩ := hs.pieces hb hst hcopy
      have hwithin := (within_concat (node_composite hlook hst)).mp hn
      have hnonempty := forall₂_filter (p := fun e => decide (0 < e.length))
        (q := fun piece => !piece.isEmpty) (fun e piece hcut => ?_) hcuts
      · simp only [hst]
        have hflat : (pieces.filter fun piece => !piece.isEmpty).flatten = c := by
          rw [List.flatten_filter_not_isEmpty, hpieces]
        refine (OkUnless.mapM (l := pieces.filter fun piece => !piece.isEmpty) ?_).bind ?check
        case check =>
          apply OkUnless.bind (OkUnless.ok _)
          rw [hflat]
          exact Or.inl hcheck
        have hpos : ∀ e ∈ (s.extentsOf b.sha256).filter fun e => decide (0 < e.length),
            e ∈ s.extentsOf b.sha256 ∧ 0 < e.length := by
          intro e he
          simpa using he
        refine ((List.forall₂_and_left _ _).mpr ⟨hpos, hnonempty⟩).imp ?_
        rintro e _ ⟨⟨he, hlen⟩, d, hd, hfit, rfl⟩
        have hfollow := follows_extent hb hst he hlen
        -- a cast fails only if the source is longer than a `bytea`
        have hlong : maxBytea < d.length → N := hN _ _ (ReflTransGen.single hfollow) hd
        unfold maxBytea at hlong
        refine (ih (hwithin _ (List.mem_map_of_mem he) hlen) hd ?_).bind ?_
        · intro k' d' hreach
          exact hN k' d' (hreach.head hfollow)
        · refine (int4_okUnless (by omega) (fun h => hlong (by omega))).bind ?_
          refine (int4_okUnless (by omega) (fun h => hlong (by omega))).bind ?_
          rw [substring_eq_slice]
          exact OkUnless.ok _
      · rw [hcut.length]
        cases piece <;> simp

theorem readBlobAt_ok (hinv : ContentInv H s) (hn : Within s.node n k) (hc : s.Holds k c)
    (hsize : c.length ≤ maxBytea) : readBlobAt s n k = .ok c := by
  refine (readBlobAt_okUnless hinv.expands hn hc (N := False) ?_).eq_ok id
  intro k' d hreach hd hlong
  have := hinv.length_below hreach hc hd
  omega

/-! ## 3. Reading a range -/

def overlaps (a z : Int) (e : BlobExtentRow) : Bool :=
  0 < e.length ∧ (e.logicalOffset : Int) ≤ z ∧ a < e.logicalOffset + e.length

/-- The pieces read for the extents that reach into a range make up the range. -/
theorem pieces_of_range {R : BlobExtentRow → Bytes → Prop} {offset : Nat}
    {es : List BlobExtentRow} {cs : List Bytes} (hcontig : ContiguousFrom offset es)
    (hes : List.Forall₂ (fun e d => e.length = d.length ∧ (overlaps a z e = true →
      R e (window e.logicalOffset d a (z + 1)))) es cs) :
    ∃ pieces, List.Forall₂ R (es.filter (overlaps a z)) pieces ∧
      pieces.flatten = window offset cs.flatten a (z + 1) := by
  induction hes generalizing offset with
  | nil => exact ⟨[], .nil, by simp [window]⟩
  | @cons e d es cs he _ ih =>
    obtain ⟨rfl, hrest⟩ := hcontig
    obtain ⟨hlen, hread⟩ := he
    obtain ⟨pieces, hpieces, hflat⟩ := ih hrest
    rw [List.flatten_cons, window_append, ← hlen, ← hflat]
    by_cases hover : overlaps a z e = true
    · rw [List.filter_cons_of_pos hover]
      exact ⟨_ :: pieces, .cons (hread hover) hpieces, List.flatten_cons⟩
    · rw [List.filter_cons_of_neg hover]
      refine ⟨pieces, hpieces, ?_⟩
      have hout : z + 1 ≤ e.logicalOffset ∨ e.logicalOffset + d.length ≤ a ∨ d.length = 0 := by
        simp only [overlaps, decide_eq_true_eq] at hover
        omega
      have hnil : window e.logicalOffset d a (z + 1) = [] := by
        rcases hout with h | h | h
        · exact window_eq_nil (Or.inl h)
        · exact window_eq_nil (Or.inr h)
        · rw [List.eq_nil_of_length_eq_zero h, window, List.take_nil, List.drop_nil]
      rw [hnil, List.nil_append]

theorem chunks_window {j first last : Nat} (hseq : rows.map (·.seq) = List.range' j rows.length)
    (hsplit : ∀ r ∈ rows, r.seq * b.chunkSize < b.size ∧
      r.data.length = min b.chunkSize (b.size - r.seq * b.chunkSize)) :
    ((rows.filter fun r => decide (first ≤ r.seq ∧ r.seq ≤ last)).map (·.data)).flatten
      = window (j * b.chunkSize) (rows.flatMap (·.data)) (first * b.chunkSize)
          ((last + 1) * b.chunkSize) := by
  induction rows generalizing j with
  | nil => simp [window]
  | cons r rows ih =>
    rw [List.map_cons, List.length_cons, List.range'_succ, List.cons.injEq] at hseq
    obtain ⟨rfl, hrest⟩ := hseq
    obtain ⟨hr, hlen⟩ := hsplit r List.mem_cons_self
    have ih := ih hrest fun r' hr' => hsplit r' (List.mem_cons_of_mem _ hr')
    rw [List.flatMap_cons, window_append]
    -- a row that is not the last one is full
    have hnext : window (r.seq * b.chunkSize + r.data.length) (rows.flatMap (·.data))
        (first * b.chunkSize) ((last + 1) * b.chunkSize)
        = window ((r.seq + 1) * b.chunkSize) (rows.flatMap (·.data)) (first * b.chunkSize)
          ((last + 1) * b.chunkSize) := by
      cases rows with
      | nil => simp [window]
      | cons r' rows =>
        have hr' := (hsplit r' (List.mem_cons_of_mem _ List.mem_cons_self)).1
        rw [List.map_cons, List.length_cons, List.range'_succ, List.cons.injEq] at hrest
        rw [hrest.1, Nat.succ_mul] at hr'
        rw [Nat.succ_mul r.seq, hlen, Nat.min_eq_left (by omega)]
    rw [hnext, ← ih]
    have hend : r.seq * b.chunkSize + r.data.length ≤ (r.seq + 1) * b.chunkSize := by
      rw [Nat.succ_mul]
      omega
    by_cases hin : first ≤ r.seq ∧ r.seq ≤ last
    · have hself : window (r.seq * b.chunkSize) r.data (first * b.chunkSize)
          ((last + 1) * b.chunkSize) = r.data :=
        window_eq_self (Nat.mul_le_mul_right _ hin.1)
          (hend.trans (Nat.mul_le_mul_right _ (Nat.succ_le_succ hin.2)))
      rw [List.filter_cons_of_pos (by simpa using hin), List.map_cons, List.flatten_cons, hself]
    · have hnil : window (r.seq * b.chunkSize) r.data (first * b.chunkSize)
          ((last + 1) * b.chunkSize) = [] := by
        rcases Nat.lt_or_ge r.seq first with hlt | hge
        · exact window_eq_nil (Or.inr (hend.trans (Nat.mul_le_mul_right _ hlt)))
        · have hlast : last + 1 ≤ r.seq := by omega
          exact window_eq_nil (Or.inl (Nat.mul_le_mul_right _ hlast))
      rw [List.filter_cons_of_neg (by simpa using hin), hnil, List.nil_append]

theorem stringAgg_eq_some {pieces : List Bytes} (h : pieces.flatten ≠ []) :
    stringAgg pieces = some pieces.flatten := by
  unfold stringAgg
  cases pieces with
  | nil => exact absurd rfl h
  | cons p ps => rfl

theorem substring_eq_window (data : Bytes) (haz : a ≤ z) :
    substring data ((a : Int) + 1) ((z : Int) - a + 1) = window 0 data a (z + 1) := by
  have hcount : (z : Int) - a + 1 = ((z + 1 - a : Nat) : Int) := by omega
  rw [hcount, substring_eq_slice, window_zero]

theorem ChunkLayout.chunkSize_pos (h : ChunkLayout b rows) (hsize : 0 < b.size) :
    0 < b.chunkSize := by
  by_contra hzero
  have hlens : rows.map (·.data.length) = rows.map fun _ => 0 := by
    refine List.map_congr_left fun r hr => ?_
    have := (h.split r hr).2
    omega
  have htotal := h.total
  rw [hlens] at htotal
  simp at htotal
  omega

theorem chunks_range (h : ChunkLayout b rows) (hcs : 0 < b.chunkSize) :
    slice ((rows.filter fun r => decide ((((a / b.chunkSize : Nat) : Int)) ≤ r.seq ∧
        (r.seq : Int) ≤ ((z / b.chunkSize : Nat) : Int))).map (·.data)).flatten
      (a - a / b.chunkSize * b.chunkSize) (z + 1 - a)
      = window 0 (rows.flatMap (·.data)) a (z + 1) := by
  have hsel : (rows.filter fun r => decide ((((a / b.chunkSize : Nat) : Int)) ≤ r.seq ∧
      (r.seq : Int) ≤ ((z / b.chunkSize : Nat) : Int)))
      = rows.filter fun r => decide (a / b.chunkSize ≤ r.seq ∧ r.seq ≤ z / b.chunkSize) := by
    refine List.filter_congr fun r _ => ?_
    rw [decide_eq_decide]
    omega
  have hseq : rows.map (·.seq) = List.range' 0 rows.length := by
    rw [h.dense, List.range_eq_range']
  rw [hsel, chunks_window hseq h.split, Nat.zero_mul]
  refine slice_window (Nat.div_mul_le_self a _) ?_
  rw [Nat.succ_mul]
  exact Nat.lt_div_mul_add hcs

theorem ChunkLayout.size_le (h : ChunkLayout b rows) : b.size ≤ rows.length * b.chunkSize := by
  rw [← h.total]
  have hle := List.sum_le_card_nsmul (rows.map (·.data.length)) b.chunkSize ?_
  · simpa using hle
  · intro n hn
    rcases List.mem_map.mp hn with ⟨r, hr, rfl⟩
    have := (h.split r hr).2
    omega

theorem ChunkLayout.row (h : ChunkLayout b rows) (hz : z < b.size) :
    ∃ r ∈ rows, r.seq = z / b.chunkSize := by
  have hmem : z / b.chunkSize ∈ rows.map (·.seq) := by
    rw [h.dense, List.mem_range]
    exact Nat.div_lt_of_lt_mul (by have := h.size_le; rw [Nat.mul_comm]; omega)
  simpa using hmem

/-- What the column types say of the payload of a blob: `bytea` for the bytes, `integer` for
    the number of a chunk. -/
def PayloadTyped (s : Db) (b : BlobRow) : Prop :=
  match b.storage with
  | .inline data => data.length ≤ maxBytea
  | .chunked => ∀ r ∈ s.chunksOf b.sha256, r.seq ≤ 2147483647 ∧ r.data.length ≤ maxBytea
  | .composite => True

/-- **Range reads.**  A blob of at most `n` levels is read in part with `n` levels left,
    unless the range is longer than a `bytea`. -/
theorem readBlobRangeAt_okUnless (hs : Expands s) (hn : Within s.node n k) (hc : s.Holds k c)
    (htyped : ∀ b ∈ s.blob.rows, ReflTransGen (Follows s.node) k b.sha256 → PayloadTyped s b)
    (haz : a ≤ z) (hz : z < c.length) {pEnd : Option Int}
    (hend : min (pEnd.getD ((c.length : Int) - 1)) ((c.length : Int) - 1) = z) {N : Prop}
    (hN : maxBytea < z + 1 - a → N) :
    OkUnless N integerOutOfRange (window 0 c a (z + 1)) (readBlobRangeAt s n k a pEnd) := by
  induction n generalizing k c a z pEnd with
  | zero => exact hn.elim
  | succ n ih =>
    have hcopy := hc
    obtain ⟨⟨b, hb, rfl, hbsize⟩, hcontent⟩ := hc
    have hlook := Table.lookup_of_mem hb
    have hwin : (window 0 c a (z + 1)).length = z + 1 - a := length_window_zero hz
    have hpayload := htyped b hb .refl
    unfold PayloadTyped at hpayload
    unfold maxBytea at hN hpayload
    unfold readBlobRangeAt
    rw [hlook]
    simp only [hbsize, hend]
    rw [if_neg (by omega), if_neg (by omega)]
    have hcount : (z : Int) - a + 1 = ((z + 1 - a : Nat) : Int) := by omega
    cases hst : b.storage with
    | inline data =>
      obtain rfl := (content_leaf (node_inline hlook hst)).mp hcontent
      simp only [hst] at hpayload ⊢
      refine (int4_okUnless (by omega) (by omega)).bind ?_
      refine (int4_okUnless (by omega) (fun h => hN (by omega))).bind ?_
      rw [substring_eq_window c haz]
      exact OkUnless.ok _
    | chunked =>
      obtain rfl := (content_leaf (node_chunked hlook hst)).mp hcontent
      have hlayout := hs.laid b hb
      unfold LaidOut at hlayout
      rw [hst] at hlayout
      simp only [hst] at hpayload ⊢
      have hcs := hlayout.chunkSize_pos (by omega)
      have hrange := chunks_range hlayout hcs (a := a) (z := z)
      have hfirst := Nat.div_mul_le_self a b.chunkSize
      have hnext := Nat.lt_div_mul_add (a := a) hcs
      -- the rows of the first and the last position bound the casts
      obtain ⟨r, hr, hrseq⟩ := hlayout.row (z := a) (by omega)
      obtain ⟨r', hr', hrseq'⟩ := hlayout.row (z := z) (by omega)
      have hrlen := (hlayout.split r hr).2
      obtain ⟨hrtyped, hrshort⟩ := hpayload r hr
      obtain ⟨hrtyped', _⟩ := hpayload r' hr'
      rw [hrseq] at hrlen hrtyped
      rw [hrseq'] at hrtyped'
      simp only [← Int.natCast_ediv]
      generalize a / b.chunkSize = first at *
      generalize z / b.chunkSize = last at *
      refine (int4_okUnless (by omega) (by omega)).bind ?_
      refine (int4_okUnless (by omega) (by omega)).bind ?_
      have hne : (((s.chunksOf b.sha256).filter fun r => decide ((first : Int) ≤ r.seq ∧
          (r.seq : Int) ≤ last)).map (·.data)).flatten ≠ [] := by
        intro hnil
        rw [hnil] at hrange
        rw [← hrange] at hwin
        simp [slice] at hwin
        omega
      rw [stringAgg_eq_some hne]
      have hstart : (a : Int) - first * b.chunkSize + 1
          = ((a - first * b.chunkSize : Nat) : Int) + 1 := by
        push_cast [hfirst]
        omega
      rw [hstart, hcount]
      refine (int4_okUnless (by omega) (by omega)).bind ?_
      refine (int4_okUnless (by omega) (fun h => hN (by omega))).bind ?_
      rw [substring_eq_slice, hrange, if_neg]
      · exact OkUnless.ok _
      · rw [hwin]
        exact fun h => h rfl
    | composite =>
      obtain ⟨pieces, hpieces, hcuts⟩ := hs.pieces hb hst hcopy
      have hlayout := hs.laid b hb
      unfold LaidOut at hlayout
      rw [hst] at hlayout
      have hwithin := (within_concat (node_composite hlook hst)).mp hn
      have hread : List.Forall₂ (fun e piece => e.length = piece.length ∧
          (overlaps a z e = true → OkUnless N integerOutOfRange
            (window e.logicalOffset piece a (z + 1))
            (readBlobRangeAt s n e.sourceBlobId
              (e.sourceOffset + max (a : Int) e.logicalOffset - e.logicalOffset)
              (some (e.sourceOffset + min (z : Int) (e.logicalOffset + e.length - 1)
                - e.logicalOffset))))) (s.extentsOf b.sha256) pieces := by
        refine ((List.forall₂_and_left _ _).mpr ⟨fun e he => he, hcuts⟩).imp ?_
        rintro e piece ⟨he, hcut⟩
        refine ⟨hcut.length, fun hover => ?_⟩
        obtain ⟨d, hd, hfit, rfl⟩ := hcut
        simp only [overlaps, decide_eq_true_eq] at hover
        obtain ⟨hpos, hbefore, hafter⟩ := hover
        have hfollow := follows_extent hb hst he hpos
        have hstart : (e.sourceOffset : Int) + max (a : Int) e.logicalOffset - e.logicalOffset
            = ((e.sourceOffset + (max a e.logicalOffset - e.logicalOffset) : Nat) : Int) := by
          omega
        rw [window_slice hfit, hstart]
        have hstop : e.sourceOffset + (min (z + 1) (e.logicalOffset + e.length) - e.logicalOffset)
            = (e.sourceOffset + (min z (e.logicalOffset + e.length - 1) - e.logicalOffset)) + 1 := by
          omega
        rw [hstop]
        refine ih (hwithin _ (List.mem_map_of_mem he) hpos) hd ?_ (by omega) (by omega) ?_ ?_
        · exact fun b' hb' hreach => htyped b' hb' (hreach.head hfollow)
        · rw [Option.getD_some]
          omega
        · intro hlong
          unfold maxBytea at hlong
          exact hN (by omega)
      obtain ⟨windows, hwindows, hflat⟩ := pieces_of_range
        (R := fun e w => OkUnless N integerOutOfRange w (readBlobRangeAt s n e.sourceBlobId _ _))
        hlayout.contiguous hread
      rw [← hpieces] at hflat
      refine (OkUnless.mapM hwindows).bind ?_
      rw [stringAgg_eq_some, hflat]
      · simp only
        rw [if_neg]
        · exact OkUnless.ok _
        · rw [hwin]
          omega
      · rw [hflat]
        intro hnil
        rw [hnil] at hwin
        simp at hwin
        omega

theorem readBlobRangeAt_ok (hinv : ContentInv H s) (hn : Within s.node n k) (hc : s.Holds k c)
    (hsize : c.length ≤ maxBytea) (haz : a ≤ z) (hz : z < c.length) {pEnd : Option Int}
    (hend : min (pEnd.getD ((c.length : Int) - 1)) ((c.length : Int) - 1) = z) :
    readBlobRangeAt s n k a pEnd = .ok (window 0 c a (z + 1)) := by
  refine (readBlobRangeAt_okUnless hinv.expands hn hc ?_ haz hz hend (N := False) ?_).eq_ok id
  · -- blobs below are not longer, so their chunks are neither longer nor more
    intro b hb hreach
    obtain ⟨d, hd, hlen, _⟩ := hinv.holds hb
    have hle := hinv.length_below hreach hc hd
    unfold maxBytea at hsize
    have hlayout := (hinv.blobs b hb).1
    unfold Layout at hlayout
    unfold PayloadTyped maxBytea
    cases hst : b.storage with
    | inline data =>
      simp only [hst] at hlayout ⊢
      omega
    | chunked =>
      simp only [hst] at hlayout ⊢
      intro r hr
      obtain ⟨hlt, hmin⟩ := hlayout.split r hr
      have hpos := hlayout.chunkSize_pos (by omega)
      have := Nat.le_mul_of_pos_right r.seq hpos
      omega
    | composite => trivial
  · omega

end Read

end Pgs3
