import Pgs3.Readable

/-!
# The three readers agree

`_read_blob` and `_read_blob_range` expand a blob in SQL, `stream_blob_range` walks it in
Rust.  They cut ranges with different arithmetic: inclusive ends and `substring` in SQL,
half-open ends, chunk by chunk and block by block, in Rust.  On every well-formed graph all
three give the same bytes (`reads_agree`).
-/

namespace Pgs3

open Foundation Foundation.Tx Foundation.Extents Relation

/-! ## 1. Well-formed graphs -/

/-- What the column types and the `CHECK` constraints say of the rows of a blob: `bigint`
    sizes, positive `integer` chunk sizes, `integer` sequence numbers, `bytea` payloads. -/
structure ColumnsTyped (s : Db) (b : BlobRow) : Prop where
  payload : PayloadTyped s b
  size : b.size ≤ 9223372036854775807
  chunkSize_pos : 0 < b.chunkSize
  chunkSize_le : b.chunkSize ≤ 2147483647
  extents : ∀ e ∈ s.extentsOf b.sha256, e.seq ≤ 2147483647

/-- Dense chunks and extents, and no cycle. -/
structure WellFormedGraph (s : Db) : Prop where
  laid : ∀ b ∈ s.blob.rows, LaidOut s b
  typed : ∀ b ∈ s.blob.rows, ColumnsTyped s b
  acyclic : ∀ k, ¬ TransGen (Edge s.node) k k

/-- Sources come before the blobs made of them. -/
theorem WellFormedGraph.wellFounded {s : Db} (hs : WellFormedGraph s) :
    WellFounded fun a b : {k // k ∈ s.blob.rows.map (·.sha256)} =>
      TransGen (Edge s.node) b.1 a.1 := by
  have htrans : IsTrans {k // k ∈ s.blob.rows.map (·.sha256)}
      fun a b => TransGen (Edge s.node) b.1 a.1 := ⟨fun _ _ _ hab hbc => hbc.trans hab⟩
  have hirrefl : Std.Irrefl fun a b : {k // k ∈ s.blob.rows.map (·.sha256)} =>
      TransGen (Edge s.node) b.1 a.1 := ⟨fun a => hs.acyclic a.1⟩
  exact Finite.wellFounded_of_trans_of_irrefl _

theorem WellFormedGraph.holds {s : Db} (hs : WellFormedGraph s) {b : BlobRow}
    (hb : b ∈ s.blob.rows) : ∃ c, s.Holds b.sha256 c := by
  suffices h : ∀ k : {k // k ∈ s.blob.rows.map (·.sha256)}, ∃ c, s.Holds k.1 c from
    h ⟨b.sha256, List.mem_map_of_mem hb⟩
  intro k
  induction k using hs.wellFounded.induction with
  | _ k ih =>
    rcases k with ⟨k, hk⟩
    rcases List.mem_map.mp hk with ⟨b, hb, rfl⟩
    have hlook := Table.lookup_of_mem hb
    have hlaid := hs.laid b hb
    unfold LaidOut at hlaid
    cases hst : b.storage with
    | inline data =>
      simp only [hst] at hlaid
      exact ⟨data, ⟨b, hb, rfl, hlaid.symm⟩, (content_leaf (node_inline hlook hst)).mpr rfl⟩
    | chunked =>
      simp only [hst] at hlaid
      refine ⟨_, ⟨b, hb, rfl, ?_⟩, (content_leaf (node_chunked hlook hst)).mpr rfl⟩
      rw [List.length_flatMap, ← hlaid.total]
    | composite =>
      simp only [hst] at hlaid
      have hnode := node_composite hlook hst
      obtain ⟨pieces, hpieces⟩ :
          ∃ pieces, List.Forall₂ (Cuts s) (s.extentsOf b.sha256) pieces := by
        apply exists_forall₂
        intro e he
        rcases hlaid.inside e he with ⟨source, hsource, hk, hfit⟩
        have hedge : Edge s.node b.sha256 source.sha256 :=
          ⟨_, hnode, e.extent, List.mem_map_of_mem he, hk.symm⟩
        rcases ih ⟨source.sha256, List.mem_map_of_mem hsource⟩ (TransGen.single hedge)
          with ⟨d, hd⟩
        rw [holds_size hsource hd] at hfit
        exact ⟨_, d, hk ▸ hd, hfit, rfl⟩
      refine ⟨pieces.flatten, ⟨b, hb, rfl, ?_⟩, ?_⟩
      · rw [← hlaid.total, List.length_flatten]
        exact congrArg List.sum (map_eq_map_of_forall₂ (hpieces.imp fun _ _ hcut => hcut.length))
      · exact (content_concat hnode).mpr (gathers_of_cuts hpieces)

theorem WellFormedGraph.expands {s : Db} (hs : WellFormedGraph s) : Expands s :=
  ⟨hs.laid, fun _ hb => hs.holds hb⟩

/-! ## 2. The layout checks of the walk -/

theorem denseLayoutError_dense (seqs sizes : List Nat)
    (hseqs : seqs.Perm (List.range seqs.length)) :
    denseLayoutError (layoutStats seqs sizes true) seqs.length sizes.sum = none := by
  rcases Nat.eq_zero_or_pos seqs.length with hzero | hpos
  · obtain rfl := List.eq_nil_of_length_eq_zero hzero
    simp [denseLayoutError, layoutStats]
  · have hmin : seqs.min? = some 0 := by
      rw [List.min?_eq_some_iff]
      exact ⟨hseqs.mem_iff.mpr (List.mem_range.mpr hpos), fun _ _ => Nat.zero_le _⟩
    have hmax : seqs.max? = some (seqs.length - 1) := by
      rw [List.max?_eq_some_iff]
      refine ⟨hseqs.mem_iff.mpr (List.mem_range.mpr (by omega)), fun m hm => ?_⟩
      have := List.mem_range.mp (hseqs.mem_iff.mp hm)
      omega
    have hne : seqs.length ≠ 0 := by omega
    simp [denseLayoutError, layoutStats, hmin, hmax, hne]

variable {offset : Nat}

theorem extentsValid_of_contiguous {s : Db} {rows : List BlobExtentRow}
    (hcontig : ContiguousFrom offset rows)
    (hinside : ∀ e ∈ rows, ∃ source ∈ s.blob.rows, source.sha256 = e.sourceBlobId ∧
      e.sourceOffset + e.length ≤ source.size) : extentsValid s offset rows = true := by
  induction rows generalizing offset with
  | nil => rfl
  | cons e rows ih =>
    rcases hcontig with ⟨hoffset, hrest⟩
    rcases hinside e List.mem_cons_self with ⟨source, hsource, hk, hfit⟩
    rw [extentsValid, ← hk, Table.lookup_of_mem hsource,
      ih hrest fun e' he' => hinside e' (List.mem_cons_of_mem _ he')]
    have hoff : e.sourceOffset ≤ source.size := by omega
    have hlen : e.length ≤ source.size - e.sourceOffset := by omega
    simp [hoffset, hoff, hlen]

theorem validateExtentLayout_ok {s : Db} {b : BlobRow}
    (h : ExtentsInside s b (s.extentsOf b.sha256)) :
    validateExtentLayout s b = .ok (s.extentsOf b.sha256).length := by
  have hcheck := denseLayoutError_dense ((s.extentsOf b.sha256).map (·.seq))
    ((s.extentsOf b.sha256).map (·.length)) (by rw [h.dense, List.length_range])
  rw [h.total] at hcheck
  unfold validateExtentLayout extentStats
  simp only [extentsValid_of_contiguous h.contiguous h.inside, layoutStats] at hcheck ⊢
  rw [hcheck]
  simp

theorem ChunkLayout.count {b : BlobRow} {rows : List ChunkRow} (h : ChunkLayout b rows)
    (hpos : 0 < b.chunkSize) :
    (if b.size = 0 then 0 else (b.size - 1) / b.chunkSize + 1) = rows.length := by
  have hle := h.size_le
  split
  · rename_i hzero
    cases rows with
    | nil => rfl
    | cons r rows =>
      have := (h.split r List.mem_cons_self).1
      omega
  · rename_i hne
    -- the last row starts before the end of the blob
    have hrows : 0 < rows.length := by
      by_contra hnone
      rw [Nat.eq_zero_of_not_pos hnone, Nat.zero_mul] at hle
      omega
    have hlast : rows.length - 1 ∈ rows.map (·.seq) := by
      rw [h.dense, List.mem_range]
      omega
    rcases List.mem_map.mp hlast with ⟨r, hr, hseq⟩
    have hbefore := (h.split r hr).1
    rw [hseq] at hbefore
    have hlo : rows.length - 1 ≤ (b.size - 1) / b.chunkSize :=
      (Nat.le_div_iff_mul_le hpos).mpr (by omega)
    have hhi : (b.size - 1) / b.chunkSize < rows.length :=
      Nat.div_lt_of_lt_mul (by rw [Nat.mul_comm]; omega)
    omega

theorem validateChunkLayout_ok {s : Db} {b : BlobRow}
    (h : ChunkLayout b (s.chunksOf b.sha256)) (hpos : 0 < b.chunkSize) :
    validateChunkLayout s b = .ok () := by
  have hperm : (s.chunksOf b.sha256).Perm (s.chunk.rows.filter fun c => c.blobId = b.sha256) :=
    orderBy_perm _ _
  -- the aggregates do not depend on the order of the rows
  have hvalid : ((s.chunk.rows.filter fun c => c.blobId = b.sha256).all fun c =>
      decide (c.seq * b.chunkSize < b.size ∧
        c.data.length = min b.chunkSize (b.size - c.seq * b.chunkSize))) = true := by
    rw [List.all_eq_true]
    intro c hc
    exact decide_eq_true (h.split c (hperm.mem_iff.mpr hc))
  have hcheck := denseLayoutError_dense
    ((s.chunk.rows.filter fun c => c.blobId = b.sha256).map (·.seq))
    ((s.chunk.rows.filter fun c => c.blobId = b.sha256).map (·.data.length)) ?_
  · rw [List.length_map, ← hperm.length_eq, ← (hperm.map _).sum_eq, h.total] at hcheck
    unfold validateChunkLayout chunkStats
    simp only [hvalid, h.count hpos, hcheck]
  · rw [List.length_map, ← hperm.length_eq, ← h.dense]
    exact (hperm.map _).symm

/-! ## 3. The walk -/

theorem bigint_ok {n : Nat} (message : String) (h : n ≤ 9223372036854775807) :
    bigint n message = .ok n := by
  unfold bigint
  rw [if_neg (by omega)]

theorem integer_ok {n : Nat} (message : String) (h : n ≤ 2147483647) :
    integer n message = .ok n := by
  unfold integer
  rw [if_neg (by omega)]

variable {start length : Nat}

theorem checkedEnd_ok {size : Nat} (hfit : start + length ≤ size)
    (hsize : size ≤ 9223372036854775807) : checkedEnd start length size = .ok (start + length) := by
  unfold checkedEnd
  rw [bigint_ok _ (by omega), ok_bind, if_neg (by omega)]

theorem loadBlob_ok {s : Db} {b : BlobRow} (hb : b ∈ s.blob.rows) (hlaid : LaidOut s b)
    (htyped : ColumnsTyped s b) : loadBlob s b.sha256 = .ok b := by
  have hpayload := htyped.payload
  have hpos := htyped.chunkSize_pos
  unfold PayloadTyped maxBytea at hpayload
  unfold LaidOut at hlaid
  unfold loadBlob
  rw [Table.lookup_of_mem hb]
  simp only
  rw [if_neg (by omega)]
  cases hst : b.storage with
  | inline data =>
    simp only [hst] at hpayload hlaid ⊢
    rw [if_neg (by omega), if_neg (by omega)]
  | chunked => rfl
  | composite => rfl

/-- The blocks read from one cell are the range that was asked for. -/
theorem emitBoundedCell_ok {cell : Cell} {data : Bytes} (hcell : cell.data = some data)
    (hshort : data.length ≤ maxBytea) {fuel : Nat} (hfuel : length ≤ fuel)
    (hfit : offset + length ≤ data.length) :
    ∃ blocks, emitBoundedCell cell fuel offset length = .ok blocks ∧
      blocks.flatten = slice data offset length := by
  unfold maxBytea at hshort
  induction fuel generalizing offset length with
  | zero =>
    obtain rfl : length = 0 := by omega
    exact ⟨[], rfl, by simp [slice]⟩
  | succ fuel ih =>
    unfold emitBoundedCell
    by_cases hzero : length = 0
    · rw [if_pos hzero, hzero]
      exact ⟨[], rfl, by simp [slice]⟩
    · rw [if_neg hzero]
      have hblock : 0 < readBlockBytes := by decide
      have hamount : 0 < min length readBlockBytes ∧ min length readBlockBytes ≤ length := by
        omega
      simp only
      generalize min length readBlockBytes = amount at hamount
      have hslice : (slice data offset amount).length = amount := length_slice (by omega)
      have hfetch : fetchSlice cell offset amount = .ok (slice data offset amount) := by
        unfold fetchSlice
        rw [integer_ok _ (by omega), integer_ok _ (by omega), hcell]
        rfl
      have hfit' : offset + amount + (length - amount) ≤ data.length := by omega
      rcases ih (by omega) hfit' with ⟨rest, hrest, hflat⟩
      refine ⟨slice data offset amount :: rest, ?_, ?_⟩
      · rw [hfetch, ok_bind, if_neg (fun h => h hslice), bigint_ok _ (by omega), ok_bind, hrest]
        rfl
      · rw [List.flatten_cons, hflat, slice, slice, ← List.drop_drop, ← List.take_add]
        congr 1
        omega

theorem ChunkLayout.data_eq {b : BlobRow} {rows : List ChunkRow} (h : ChunkLayout b rows)
    {r : ChunkRow} (hr : r ∈ rows) : r.data = window 0 (rows.flatMap (·.data)) (r.seq * b.chunkSize)
      ((r.seq + 1) * b.chunkSize) := by
  have hseq : rows.map (·.seq) = List.range' 0 rows.length := by
    rw [h.dense, List.range_eq_range']
  have hwindow := @chunks_window b rows 0 r.seq r.seq hseq h.split
  have hself : rows.filter (fun x => decide (r.seq ≤ x.seq ∧ x.seq ≤ r.seq)) = [r] := by
    rw [← filter_key_eq (f := ChunkRow.seq) (by rw [h.dense]; exact List.nodup_range) hr]
    refine List.filter_congr fun x _ => ?_
    rw [decide_eq_decide]
    omega
  rw [hself, Nat.zero_mul] at hwindow
  simpa using hwindow

variable {stop : Nat}

/-- Consecutive chunks, cut to a range, make up the range. -/
theorem windows_of_chunks {data : Bytes} {size : Nat} (hsize : 0 < size) (m : Nat) :
    ((List.range' (start / size) (m + 1)).map fun seq =>
        window 0 data (max start (seq * size)) (min stop ((seq + 1) * size))).flatten
      = window 0 data start (min stop ((start / size + m + 1) * size)) := by
  have hfirst := Nat.div_mul_le_self start size
  have hnext : start < (start / size + 1) * size := by
    rw [Nat.succ_mul]
    exact Nat.lt_div_mul_add hsize
  generalize start / size = first at *
  induction m with
  | zero => simp [Nat.max_eq_left hfirst]
  | succ m ih =>
    rw [List.range'_1_concat, List.map_append, List.flatten_append, ih, List.map_singleton,
      List.flatten_singleton]
    have hmono : (first + 1) * size ≤ (first + (m + 1)) * size :=
      Nat.mul_le_mul_right _ (by omega)
    have hgrow : (first + (m + 1)) * size ≤ (first + (m + 1) + 1) * size :=
      Nat.mul_le_mul_right _ (by omega)
    rw [Nat.max_eq_right (by omega), Nat.add_assoc first m 1]
    by_cases hend : stop ≤ (first + (m + 1)) * size
    · -- the range has ended before this chunk
      rw [Nat.min_eq_left hend, Nat.min_eq_left (hend.trans hgrow),
        window_zero data ((first + (m + 1)) * size), Nat.sub_eq_zero_of_le hend, slice,
        List.take_zero, List.append_nil]
    · rw [Nat.min_eq_right (by omega)]
      exact window_trans data (by omega) (by omega)

theorem contiguousFrom_ends {es : List BlobExtentRow} (h : ContiguousFrom offset es) :
    ∀ e ∈ es, e.logicalOffset + e.length ≤ offset + (es.map (·.length)).sum := by
  induction es generalizing offset with
  | nil => exact fun e he => absurd he List.not_mem_nil
  | cons first es ih =>
    rcases h with ⟨rfl, hrest⟩
    intro e he
    rw [List.map_cons, List.sum_cons]
    rcases List.mem_cons.mp he with rfl | he
    · omega
    · have := ih hrest e he
      omega

/-- Contiguous extents, each cut to a range, make up the range. -/
theorem windows_of_extents {f : BlobExtentRow → Except PgError (List Bytes)} {a z : Nat}
    {es : List BlobExtentRow} {pieces : List Bytes} (hcontig : ContiguousFrom offset es)
    (hes : List.Forall₂ (fun e piece => e.length = piece.length ∧ ∃ blocks, f e = .ok blocks ∧
      blocks.flatten = window e.logicalOffset piece a z) es pieces) :
    ∃ walks, List.Forall₂ (fun e blocks => f e = .ok blocks) es walks ∧
      walks.flatten.flatten = window offset pieces.flatten a z := by
  induction hes generalizing offset with
  | nil => exact ⟨[], .nil, by simp [window]⟩
  | @cons e piece es pieces he _ ih =>
    rcases hcontig with ⟨rfl, hrest⟩
    rcases he with ⟨hlen, blocks, hblocks, hflat⟩
    rcases ih hrest with ⟨walks, hwalks, hrestFlat⟩
    refine ⟨blocks :: walks, .cons hblocks hwalks, ?_⟩
    rw [List.flatten_cons, List.flatten_append, hflat, hrestFlat, List.flatten_cons,
      window_append, hlen]

section Chunks

variable {s : Db} {b : BlobRow} (hlaid : ChunkLayout b (s.chunksOf b.sha256))
  (htyped : ColumnsTyped s b)
  (hpayload : ∀ r ∈ s.chunksOf b.sha256, r.seq ≤ 2147483647 ∧ r.data.length ≤ maxBytea)

include hlaid htyped hpayload

theorem emitChunk_ok {seq : Nat} (hseq : seq ∈ (s.chunksOf b.sha256).map (·.seq))
    (hlt : start < stop) (hstop : stop ≤ b.size) (hafter : start < (seq + 1) * b.chunkSize)
    (hbefore : seq * b.chunkSize < stop) :
    ∃ blocks, emitChunk s b.sha256 b.chunkSize start stop seq = .ok blocks ∧
      blocks.flatten = window 0 ((s.chunksOf b.sha256).flatMap (·.data))
        (max start (seq * b.chunkSize)) (min stop ((seq + 1) * b.chunkSize)) := by
  rcases List.mem_map.mp hseq with ⟨r, hr, rfl⟩
  obtain ⟨hinteger, hshort⟩ := hpayload r hr
  have hdata := hlaid.data_eq hr
  have hlen := (hlaid.split r hr).2
  have hbound : (r.seq + 1) * b.chunkSize ≤ 2147483648 * 2147483647 :=
    Nat.mul_le_mul (by omega) htyped.chunkSize_le
  have hcell : (chunkCell s b.sha256 r.seq).data = some r.data := by
    have hrow : r ∈ s.chunk.rows.filter fun c => c.blobId = b.sha256 := mem_orderBy _ |>.mp hr
    simp only [List.mem_filter, decide_eq_true_eq] at hrow
    rw [chunkCell, ← hrow.2, Table.lookup_of_mem hrow.1]
    rfl
  rw [Nat.succ_mul] at hafter hbound hdata ⊢
  unfold emitChunk
  rw [integer_ok _ hinteger, ok_bind, bigint_ok _ (by omega), ok_bind, bigint_ok _ (by omega),
    ok_bind]
  generalize r.seq * b.chunkSize = chunkStart at *
  have hfit : max start chunkStart - chunkStart
      + (min stop (chunkStart + b.chunkSize) - max start chunkStart) ≤ r.data.length := by omega
  rcases emitBoundedCell_ok hcell hshort (Nat.le_refl _) hfit with ⟨blocks, hblocks, hflat⟩
  refine ⟨blocks, hblocks, ?_⟩
  rw [hflat, hdata]
  exact slice_window (by omega) (by omega)

theorem emitChunks_ok (hlength : length ≠ 0) (hfit : start + length ≤ b.size) :
    ∃ walks, List.Forall₂ (fun seq blocks =>
        emitChunk s b.sha256 b.chunkSize start (start + length) seq = .ok blocks)
      (List.range' (start / b.chunkSize)
        ((start + length - 1) / b.chunkSize + 1 - start / b.chunkSize)) walks ∧
      walks.flatten.flatten = slice ((s.chunksOf b.sha256).flatMap (·.data)) start length := by
  have hpos := htyped.chunkSize_pos
  have hfirst : start < (start / b.chunkSize + 1) * b.chunkSize := by
    rw [Nat.succ_mul]
    exact Nat.lt_div_mul_add hpos
  have hlast : (start + length - 1) / b.chunkSize * b.chunkSize ≤ start + length - 1 :=
    Nat.div_mul_le_self _ _
  have hend : start + length - 1 < ((start + length - 1) / b.chunkSize + 1) * b.chunkSize := by
    rw [Nat.succ_mul]
    exact Nat.lt_div_mul_add hpos
  have horder : start / b.chunkSize ≤ (start + length - 1) / b.chunkSize :=
    Nat.div_le_div_right (by omega)
  have hturns : ∀ seq ∈ List.range' (start / b.chunkSize)
      ((start + length - 1) / b.chunkSize + 1 - start / b.chunkSize), ∃ blocks,
      emitChunk s b.sha256 b.chunkSize start (start + length) seq = .ok blocks ∧
      blocks.flatten = window 0 ((s.chunksOf b.sha256).flatMap (·.data))
        (max start (seq * b.chunkSize)) (min (start + length) ((seq + 1) * b.chunkSize)) := by
    intro seq hseq
    rw [List.mem_range'_1] at hseq
    have hlo : (start / b.chunkSize + 1) * b.chunkSize ≤ (seq + 1) * b.chunkSize :=
      Nat.mul_le_mul_right _ (by omega)
    have hhi : seq * b.chunkSize ≤ (start + length - 1) / b.chunkSize * b.chunkSize :=
      Nat.mul_le_mul_right _ (by omega)
    have hrow : seq ∈ (s.chunksOf b.sha256).map (·.seq) := by
      rw [hlaid.dense, List.mem_range]
      have hle := hlaid.size_le
      exact Nat.lt_of_mul_lt_mul_right (a := b.chunkSize) (by omega)
    exact emitChunk_ok hlaid htyped hpayload hrow (by omega) hfit (by omega) (by omega)
  obtain ⟨walks, hwalks⟩ := exists_forall₂ hturns
  refine ⟨walks, hwalks.imp fun _ _ h => h.1, ?_⟩
  have hwindows := map_eq_map_of_forall₂ (hwalks.imp fun _ _ h => h.2.symm)
  obtain ⟨m, hm⟩ : ∃ m, (start + length - 1) / b.chunkSize = start / b.chunkSize + m :=
    Nat.exists_eq_add_of_le horder
  have hcount : (start + length - 1) / b.chunkSize + 1 - start / b.chunkSize = m + 1 := by omega
  rw [List.flatten_flatten, ← hwindows, hcount, windows_of_chunks hpos, ← hm,
    Nat.min_eq_left (by omega), window_zero, Nat.add_sub_cancel_left]

end Chunks

/-- One extent gives the part of the range that lies in it, if its source can be walked. -/
theorem walkExtent_ok {s : Db} {b : BlobRow} (htyped : ColumnsTyped s b)
    (hlaid : ExtentsInside s b (s.extentsOf b.sha256)) {e : BlobExtentRow}
    (he : e ∈ s.extentsOf b.sha256) {piece : Bytes} (hcut : Cuts s e piece)
    {stream : Bytes → Nat → Nat → Except PgError (List Bytes)}
    (hsource : ∀ d, s.Holds e.sourceBlobId d → d.length ≤ 9223372036854775807)
    (hstream : ∀ d, s.Holds e.sourceBlobId d → 0 < e.length → ∀ skip count,
      skip + count ≤ d.length → ∃ blocks, stream e.sourceBlobId skip count = .ok blocks ∧
        blocks.flatten = slice d skip count) :
    ∃ blocks, walkExtent s b.sha256 b.size start stop stream e.seq = .ok blocks ∧
      blocks.flatten = window e.logicalOffset piece start stop := by
  have hlen := hcut.length
  rcases hcut with ⟨d, hd, hfit, rfl⟩
  obtain ⟨hrow, hfinal⟩ := mem_extentsOf.mp he
  have hextent : s.blobExtent.lookup (b.sha256, e.seq) = some e := by
    rw [← hfinal]
    exact Table.lookup_of_mem hrow
  have hend := contiguousFrom_ends hlaid.contiguous e he
  rw [hlaid.total, Nat.zero_add] at hend
  unfold walkExtent
  rw [integer_ok _ (htyped.extents e he), ok_bind, hextent]
  simp only
  rw [checkedEnd_ok hend htyped.size, ok_bind]
  split
  · rename_i hskip
    refine ⟨[], rfl, ?_⟩
    rcases hskip with hzero | hafter | hbefore
    · rw [hzero, slice, List.take_zero, window, List.take_nil, List.drop_nil, List.flatten_nil]
    · rw [window_eq_nil (Or.inl hafter), List.flatten_nil]
    · rw [window_eq_nil (Or.inr (by omega)), List.flatten_nil]
  · rename_i hreach
    push Not at hreach
    have hbig := hsource d hd
    rw [bigint_ok _ (by omega), ok_bind]
    rcases hstream d hd (by omega)
      (e.sourceOffset + (max start e.logicalOffset - e.logicalOffset))
      (min stop (e.logicalOffset + e.length) - max start e.logicalOffset) (by omega)
      with ⟨blocks, hblocks, hflat⟩
    refine ⟨blocks, hblocks, ?_⟩
    rw [hflat, window_slice hfit, window_zero]
    congr 1
    omega

/-- **The walk.**  A blob of at most `depth` levels is streamed with `depth` levels left, and
    the blocks make up the range. -/
theorem streamBlobRange_ok {s : Db} (hs : WellFormedGraph s) {depth : Nat} {path : List Bytes}
    {k c : Bytes} (hdepth : Within s.node depth k) (hc : s.Holds k c)
    (hpath : ∀ p ∈ path, TransGen (Edge s.node) p k) (hfit : start + length ≤ c.length) :
    ∃ blocks, streamBlobRange s depth path k start length = .ok blocks ∧
      blocks.flatten = slice c start length := by
  induction depth generalizing path k c start length with
  | zero => exact hdepth.elim
  | succ depth ih =>
    have hcopy := hc
    obtain ⟨⟨b, hb, rfl, hbsize⟩, hcontent⟩ := hc
    have hlook := Table.lookup_of_mem hb
    have htyped := hs.typed b hb
    have hsize := htyped.size
    have hlaid := hs.laid b hb
    have hnocycle : path.contains b.sha256 = false := by
      rw [List.contains_eq_mem, decide_eq_false_iff_not]
      exact fun hmem => hs.acyclic _ (hpath _ hmem)
    unfold streamBlobRange
    rw [hnocycle, if_neg (by simp), loadBlob_ok hb hlaid htyped, ok_bind,
      checkedEnd_ok (by omega) hsize, ok_bind]
    have hpayload := htyped.payload
    unfold PayloadTyped at hpayload
    unfold LaidOut at hlaid
    cases hst : b.storage with
    | inline data =>
      obtain rfl := (content_leaf (node_inline hlook hst)).mp hcontent
      simp only [hst] at hpayload ⊢
      exact emitBoundedCell_ok rfl hpayload (Nat.le_refl _) hfit
    | chunked =>
      obtain rfl := (content_leaf (node_chunked hlook hst)).mp hcontent
      simp only [hst] at hpayload hlaid ⊢
      rw [validateChunkLayout_ok hlaid htyped.chunkSize_pos, ok_bind]
      by_cases hzero : length = 0
      · rw [if_pos hzero, hzero]
        exact ⟨[], rfl, by simp [slice]⟩
      · rw [if_neg hzero]
        have hstop : start + length ≤ b.size := by omega
        obtain ⟨walks, hwalks, hflat⟩ := emitChunks_ok hlaid htyped hpayload hzero hstop
        rw [mapM_eq_ok.mpr hwalks]
        exact ⟨walks.flatten, rfl, hflat⟩
    | composite =>
      obtain ⟨pieces, hpieces, hcuts⟩ := hs.expands.pieces hb hst hcopy
      simp only [hst] at hlaid ⊢
      have hwithin := (within_concat (node_composite hlook hst)).mp hdepth
      rw [validateExtentLayout_ok hlaid, ok_bind, ← hlaid.dense]
      have hturns : List.Forall₂ (fun e piece => e.length = piece.length ∧ ∃ blocks,
          walkExtent s b.sha256 b.size start (start + length)
            (streamBlobRange s depth (b.sha256 :: path)) e.seq = .ok blocks ∧
          blocks.flatten = window e.logicalOffset piece start (start + length))
          (s.extentsOf b.sha256) pieces := by
        refine ((List.forall₂_and_left _ _).mpr ⟨fun e he => he, hcuts⟩).imp ?_
        rintro e piece ⟨he, hcut⟩
        refine ⟨hcut.length, walkExtent_ok htyped hlaid he hcut ?_ ?_⟩
        · rintro d ⟨⟨source, hsource, _, hlen⟩, _⟩
          rw [← hlen]
          exact (hs.typed source hsource).size
        intro d hd hpos skip count hcount
        have hedge : Edge s.node b.sha256 e.sourceBlobId :=
          ⟨_, node_composite hlook hst, e.extent, List.mem_map_of_mem he, rfl⟩
        refine ih (hwithin _ (List.mem_map_of_mem he) hpos) hd ?_ hcount
        intro p hp
        rcases List.mem_cons.mp hp with rfl | hp
        · exact TransGen.single hedge
        · exact (hpath p hp).tail hedge
      obtain ⟨walks, hwalks, hflat⟩ := windows_of_extents hlaid.contiguous hturns
      rw [mapM_eq_ok.mpr (List.forall₂_map_left_iff.mpr hwalks)]
      refine ⟨walks.flatten, rfl, ?_⟩
      rw [hflat, ← hpieces, window_zero, Nat.add_sub_cancel_left]

/-! ## 4. Agreement -/

/-- Nothing that a read of the blob expands is longer than a `bytea`. -/
def FitsBytea (s : Db) (k : Bytes) : Prop :=
  ∀ b ∈ s.blob.rows, ReflTransGen (Follows s.node) k b.sha256 → b.size ≤ maxBytea

/-- **Whole, range and streaming reads agree.**  On every well-formed graph a blob of at most
    64 levels has a content `c` of its size, and

    * `_read_blob` returns `c`, if everything it expands fits a `bytea`;
    * `_read_blob_range` returns the slice of `c` for every range in bounds, if the slice fits
      a `bytea`;
    * the blocks that `stream_blob_range` emits for a range in bounds are that slice of `c`.

    The SQL readers never raise anything but the failed cast of a length beyond `integer`. -/
theorem reads_agree {s : Db} (hs : WellFormedGraph s) {b : BlobRow} (hb : b ∈ s.blob.rows)
    (hdepth : Within s.node maxBlobDepth b.sha256) :
    ∃ c, Content s.node b.sha256 c ∧ c.length = b.size ∧
      (FitsBytea s b.sha256 → readBlob s b.sha256 = .ok c) ∧
      (∀ e, readBlob s b.sha256 = .error e → e = integerOutOfRange) ∧
      (∀ (a z : Nat) (pEnd : Option Int), a ≤ z → z < c.length →
        min (pEnd.getD ((c.length : Int) - 1)) ((c.length : Int) - 1) = z → (z + 1 - a ≤ maxBytea →
          readBlobRange s b.sha256 a pEnd = .ok (slice c a (z + 1 - a))) ∧
        ∀ e, readBlobRange s b.sha256 a pEnd = .error e → e = integerOutOfRange) ∧
      ∀ start length, start + length ≤ c.length →
        ∃ blocks, streamBlobRange s maxBlobDepth [] b.sha256 start length = .ok blocks ∧
          blocks.flatten = slice c start length := by
  obtain ⟨c, hc⟩ := hs.holds hb
  have hwithin : Within s.node 65 b.sha256 := hdepth.mono (by decide)
  refine ⟨c, hc.2, (holds_size hb hc).symm, ?_, ?_, ?_, ?_⟩
  · intro hfits
    refine (readBlobAt_okUnless hs.expands hwithin hc (N := False) ?_).eq_ok id
    rintro k' d hreach ⟨⟨b', hb', rfl, hlen⟩, _⟩ hlong
    have := hfits b' hb' hreach
    omega
  · intro e he
    have hread := readBlobAt_okUnless hs.expands hwithin hc (N := True) fun _ _ _ _ _ => trivial
    exact hread.eq_error he
  · intro a z pEnd haz hz hend
    have htyped : ∀ b' ∈ s.blob.rows, ReflTransGen (Follows s.node) b.sha256 b'.sha256 →
        PayloadTyped s b' := fun b' hb' _ => (hs.typed b' hb').payload
    have hread := fun {N : Prop} => readBlobRangeAt_okUnless (N := N) hs.expands hwithin hc htyped
      haz hz hend
    rw [window_zero] at hread
    constructor
    · intro hshort
      exact (hread (N := False) (by omega)).eq_ok id
    · intro e he
      exact (hread (N := True) fun _ => trivial).eq_error he
  · intro start length hfit
    exact streamBlobRange_ok hs hdepth hc (fun p hp => absurd hp List.not_mem_nil) hfit

/-- The last two bytes of an inline blob, then the first chunk of a chunked one. -/
def sampleGraph : Db :=
  { Db.empty with
    blob := ⟨[⟨[1], 3, 2, .inline [10, 11, 12], 1, 0⟩, ⟨[2], 3, 2, .chunked, 1, 0⟩,
      ⟨[3], 4, 2, .composite, 0, 0⟩], by decide⟩
    chunk := ⟨[⟨[2], 0, [20, 21]⟩, ⟨[2], 1, [22]⟩], by decide⟩
    blobExtent := ⟨[⟨[3], 0, 0, [1], 1, 2⟩, ⟨[3], 1, 2, [2], 0, 2⟩], by decide⟩ }

theorem sampleGraph_content : Content sampleGraph.node [3] [11, 12, 20, 21] := ⟨2, by decide⟩

theorem sampleGraph_wellFormed : WellFormedGraph sampleGraph where
  laid := by
    intro b hb
    simp only [sampleGraph, List.mem_cons, List.not_mem_nil, or_false] at hb
    rcases hb with rfl | rfl | rfl
    · rfl
    · exact ⟨by decide, by decide, by decide⟩
    · exact ⟨by decide, ⟨rfl, rfl, trivial⟩, by decide, by decide⟩
  typed := by
    intro b hb
    simp only [sampleGraph, List.mem_cons, List.not_mem_nil, or_false] at hb
    rcases hb with rfl | rfl | rfl
    · exact ⟨by unfold PayloadTyped; decide, by decide, by decide, by decide, by decide⟩
    · exact ⟨by unfold PayloadTyped; decide, by decide, by decide, by decide, by decide⟩
    · exact ⟨trivial, by decide, by decide, by decide, by decide⟩
  acyclic := by
    intro k hcycle
    rcases TransGen.head'_iff.mp hcycle with ⟨_, ⟨es, hnode, _⟩, _⟩
    -- only the composite has sources, and it has a content
    have hk : k = [3] := by
      simp only [Db.node, Option.map_eq_some_iff] at hnode
      rcases hnode with ⟨b, hb, hst⟩
      have hmem := Table.lookup_mem hb
      rw [← Table.lookup_key hb]
      simp only [sampleGraph, List.mem_cons, List.not_mem_nil, or_false] at hmem
      rcases hmem with rfl | rfl | rfl
      · cases hst
      · cases hst
      · rfl
    subst hk
    exact sampleGraph_content.acyclic hcycle

theorem reads_agree_sampleGraph : readBlob sampleGraph [3] = .ok [11, 12, 20, 21] ∧
    readBlobRange sampleGraph [3] 1 (some 2) = .ok [12, 20] ∧
    ∃ blocks, streamBlobRange sampleGraph maxBlobDepth [] [3] 1 2 = .ok blocks ∧
      blocks.flatten = [12, 20] := by
  have hwithin : Within sampleGraph.node maxBlobDepth [3] := by
    refine ⟨.concat [⟨[1], 1, 2⟩, ⟨[2], 0, 2⟩], rfl, fun e he _ => ?_⟩
    simp only [Node.extents, List.mem_cons, List.not_mem_nil, or_false] at he
    rcases he with rfl | rfl
    · exact within_leaf (show sampleGraph.node [1] = some (.leaf [10, 11, 12]) from rfl) _
    · exact within_leaf (show sampleGraph.node [2] = some (.leaf [20, 21, 22]) from rfl) _
  have hsizes : ∀ b ∈ sampleGraph.blob.rows, b.size ≤ maxBytea := by decide
  obtain ⟨c, hc, _, hread, _, hrange, hstream⟩ := reads_agree sampleGraph_wellFormed
    (b := ⟨[3], 4, 2, .composite, 0, 0⟩) (by simp [sampleGraph]) hwithin
  obtain rfl := hc.unique sampleGraph_content
  exact ⟨hread fun b hb _ => hsizes b hb, (hrange 1 2 (some 2) (by decide) (by decide) rfl).1
    (by decide), hstream 1 2 (by decide)⟩

end Pgs3
