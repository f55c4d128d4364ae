import Pgs3.ContentOps
import Pgs3.Foundation.Listing
import Pgs3.S3.Route

/-!
# Listing the parts of an upload

Translation of `pgs3.list_parts` of `sql/bootstrap.sql` and of `list_parts` of `s3/xml.rs`.  The
database returns all parts in the order of their numbers; the page that the client asked for is
cut out when the answer is written.  A client that follows `NextPartNumberMarker` gets all parts
above the first marker, unless it asks for pages without parts.
-/

namespace Pgs3

open Foundation Foundation.Tx

/-- `pgs3.list_parts`, with the function of the same name that it calls. -/
def listParts (c : Context) (bucket key : Text) (u : Uuid) : DbTx (List UploadPartRow) := do
  let _ ← uploadForUpdateAt c u bucket key (some true)
  let _ ← uploadForUpdate c u
  return orderBy (·.partNumber) ((← get).uploadPart.rows.filter fun p => p.uploadId = u)

/-- Only parts with these numbers are ever acknowledged. -/
def PartsInRange (s : Db) : Prop :=
  ∀ p ∈ s.uploadPart.rows, 1 ≤ p.partNumber ∧ p.partNumber ≤ 10000

theorem step_keeps_partsInRange (α : Type) (m : DbTx α) (hm : Step α m) : Keeps PartsInRange m := by
  intro s a s' h hy
  cases hm with
  | shallow hs =>
    cases hs with
    | quiet hq => exact fun p hp => h p ((quiet_leavesBlobs hq hy).parts p hp)
    | hashing hh =>
      cases hh with
      | logHashed body =>
        obtain rfl := yields_modify.mp hy
        exact h
    | ensureBlob c sha256 body =>
      obtain ⟨_, ⟨rfl, _⟩ | ⟨row, cs, hadds, _⟩⟩ := yields_ensureBlob hy
      · exact h
      · exact fun p hp => h p (hadds.parts ▸ hp)
    | upsertUploadChunk row =>
      obtain ⟨_, rfl⟩ := yields_upsertUploadChunk hy
      exact h
    | upsertUploadPart row hrow =>
      obtain ⟨_, rfl⟩ := yields_upsertUploadPart hy
      intro p hp
      rcases Table.mem_upsert.mp hp with rfl | ⟨hp, _⟩
      · exact hrow
      · exact h p hp
    | deleteBlob k =>
      obtain ⟨_, rfl⟩ := yields_deleteBlob hy
      exact h
  | storeComposite c sha256 size gone sources =>
    obtain ⟨_, ⟨rfl, _⟩ | ⟨row, t, d, hadds, rfl, _⟩⟩ := yields_storeComposite hy
    · exact h
    · exact fun p hp => h p (hadds.parts ▸ hp)

theorem Reachable.partsInRange {H : Digests} {s : Db} (h : Reachable H s) : PartsInRange s :=
  h.invariant (fun p hp => absurd hp (by simp [Db.empty]))
    (fun c op => (opBody_built H c op).keeps step_keeps_partsInRange) fun _ _ _ hI => hI

theorem listParts_built (c : Context) (bucket key : Text) (u : Uuid) :
    Built Quiet (listParts c bucket key u) :=
  .bind (uploadForUpdateAt_built c u bucket key _) fun _ =>
    .bind (uploadForUpdate_built c u) fun _ => .bind .get fun _ => .pure _

namespace S3

open Protocol

/-! ## 1. The answer -/

structure PartRecord where
  partNumber : Int
  size : Int
  etag : Text
  sha256 : Bytes
  completedMs : Int
deriving DecidableEq

/-- A number of microseconds as `bigint` milliseconds; the cast rounds half away from 0. -/
def roundedMs (microseconds : Int) : Int :=
  if 0 ≤ microseconds then (microseconds + 500) / 1000 else -((500 - microseconds) / 1000)

def partRecord (row : UploadPartRow) : PartRecord :=
  ⟨row.partNumber, row.size, row.etag, row.sha256, roundedMs row.completedAt⟩

def asUsize (n : Int) : Nat := (n % 2 ^ 64).toNat

/-- What a client reads from an answer. -/
structure PartsPage where
  partNumberMarker : Int
  nextPartNumberMarker : Option Int
  maxParts : Int
  isTruncated : Bool
  parts : List PartRecord
deriving DecidableEq

/-- The variables of `list_parts`, as they are written. -/
def partsPage (marker maxParts : Int) (parts : List PartRecord) : PartsPage :=
  let eligible := parts.filter fun part => marker < part.partNumber
  let truncated := decide (asUsize maxParts < eligible.length)
  let page := eligible.take (min eligible.length (asUsize maxParts))
  let nextMarker := (page.getLast?.map (·.partNumber)).getD marker
  ⟨marker, if truncated then some nextMarker else none, maxParts, truncated, page⟩

/-! ## 2. Pages -/

/-- The parts of an upload as the database returns them. -/
structure PartSet where
  records : List PartRecord
  increasing : (records.map (·.partNumber)).Pairwise (· < ·)
  inRange : ∀ part ∈ records, 1 ≤ part.partNumber ∧ part.partNumber ≤ 10000

/-- **What the database returns** is a part set. -/
theorem exists_partSet {H : Digests} {s s' : Db} (h : Reachable H s) {c : Context}
    {bucket key : Text} {u : Uuid} {rows : List UploadPartRow}
    (hy : Yields (listParts c bucket key u) s rows s') :
    ∃ parts : PartSet, parts.records = rows.map partRecord := by
  have hrange := (built_of_quiet (listParts_built c bucket key u)).keeps step_keeps_partsInRange
    s rows s' h.partsInRange hy
  simp only [listParts, yields_bind, yields_get, yields_pure] at hy
  obtain ⟨_, _, _, _, _, _, _, _, ⟨rfl, rfl⟩, rfl, rfl⟩ := hy
  have hnodup : ((s'.uploadPart.rows.filter fun p => p.uploadId = u).map (·.partNumber)).Nodup := by
    have hkeys := s'.uploadPart.nodup
    refine List.Nodup.map_on ?_ (List.Nodup.of_map _ hkeys |>.filter _)
    intro p hp q hq hnumber
    rw [List.mem_filter, decide_eq_true_eq] at hp hq
    exact List.inj_on_of_nodup_map hkeys hp.1 hq.1 (Prod.ext (hp.2.trans hq.2.symm) hnumber)
  refine ⟨⟨_, ?_, ?_⟩, rfl⟩
  · rw [List.map_map, List.pairwise_map]
    exact (List.pairwise_map.mp (orderBy_pairwise_lt UploadPartRow.partNumber hnodup)).imp
      fun hlt => Int.ofNat_lt.mpr hlt
  · intro part hpart
    obtain ⟨p, hp, rfl⟩ := List.mem_map.mp hpart
    have hnumber := hrange p (List.mem_filter.mp ((mem_orderBy _).mp hp)).1
    exact ⟨Int.ofNat_le.mpr hnumber.1, Int.ofNat_le.mpr hnumber.2⟩

/-- The parts after a marker. -/
def PartSet.above (parts : PartSet) (marker : Int) : List PartRecord :=
  parts.records.filter fun part => marker < part.partNumber

/-- The limits of the router for `ListParts`. -/
def checkListParts (params : ListPartsParams) : Except S3Error Unit :=
  ensure ((0 ≤ params.partNumberMarker ∧ params.partNumberMarker ≤ 10000)
      ∧ 0 ≤ params.maxParts ∧ params.maxParts ≤ 1000)
    (invalidArgument "part-number-marker must be 0..10000 and max-parts must be 0..1000")

/-- One request, with the parameters of the next one. -/
def fetchParts (parts : PartSet) (params : ListPartsParams) :
    Except S3Error (PartsPage × Option ListPartsParams) := do
  checkListParts params
  let page := partsPage params.partNumberMarker params.maxParts parts.records
  return (page, page.nextPartNumberMarker.map fun marker => ⟨marker, params.maxParts⟩)

/-- The router lets exactly the parameters within the limits pass. -/
theorem checkListParts_of_classify {bucket key uploadId : Bytes} {query : QueryParams}
    {params : ListPartsParams} (h : classifyListParts bucket key uploadId query
      = .ok (.listParts bucket key uploadId params)) : checkListParts params = .ok () := by
  simp only [classifyListParts, bind_eq_ok, pure_eq_ok, ensure_eq_ok] at h
  rcases h with ⟨_, _, _, _, _, _, marker, _, maxParts, _, _, hlimits, hparams⟩
  cases hparams
  exact ensure_eq_ok.mpr hlimits

section Following

variable {parts : PartSet} {params : ListPartsParams}

theorem asUsize_of_checked (h : checkListParts params = .ok ()) :
    (asUsize params.maxParts : Int) = params.maxParts := by
  have hlimits := ensure_eq_ok.mp h
  unfold asUsize
  omega

theorem above_increasing (parts : PartSet) (marker : Int) :
    (parts.above marker).Pairwise fun part part' => part.partNumber < part'.partNumber :=
  (List.pairwise_map.mp parts.increasing).filter _

theorem partsPage_eq (parts : PartSet) (marker maxParts : Int) :
    partsPage marker maxParts parts.records
      = let page := (parts.above marker).take (asUsize maxParts)
        ⟨marker, if asUsize maxParts < (parts.above marker).length
          then some ((page.getLast?.map (·.partNumber)).getD marker) else none, maxParts,
          decide (asUsize maxParts < (parts.above marker).length), page⟩ := by
  have habove : parts.records.filter (fun part => marker < part.partNumber)
      = parts.above marker := rfl
  have htake : (parts.above marker).take (min (parts.above marker).length (asUsize maxParts))
      = (parts.above marker).take (asUsize maxParts) := by
    rw [min_comm, ← List.take_eq_take_min]
  simp only [partsPage, habove, htake, decide_eq_true_eq]

/-- The next marker is the number of the last part that was shown, and above it is what was
    not shown. -/
theorem above_next {marker maxParts next : Int} (hpos : 0 < asUsize maxParts)
    (h : (partsPage marker maxParts parts.records).nextPartNumberMarker = some next) :
    (marker < next ∧ next ≤ 10000) ∧ parts.above next = (parts.above marker).drop (asUsize maxParts)
      ∧ asUsize maxParts < (parts.above marker).length := by
  rw [partsPage_eq] at h
  rcases Option.ite_none_right_eq_some.mp h with ⟨hmore, hnext⟩
  rcases Nat.exists_eq_succ_of_ne_zero hpos.ne' with ⟨n, hn⟩
  rw [hn] at hmore hnext ⊢
  have hget := List.getElem?_eq_getElem (show n < (parts.above marker).length by omega)
  generalize (parts.above marker)[n] = last at hget
  have hlast : ((parts.above marker).take (n + 1)).getLast? = some last := by
    rw [List.take_add_one, hget]
    simp
  rw [Nat.succ_eq_add_one, hlast] at hnext
  have hnext : last.partNumber = next := Option.some.inj hnext
  subst hnext
  rcases List.mem_filter.mp (List.mem_of_getElem? hget) with ⟨hmem, habove⟩
  refine ⟨⟨of_decide_eq_true habove, (parts.inRange last hmem).2⟩, ?_, hmore⟩
  rw [drop_eq_filter (above_increasing parts marker) hget]
  unfold PartSet.above
  rw [List.filter_filter]
  apply List.filter_congr
  intro part _
  have hmarker : marker < last.partNumber := of_decide_eq_true habove
  rw [Bool.eq_iff_iff, Bool.and_eq_true]
  simp only [decide_eq_true_eq]
  omega

theorem fetchParts_page (hpos : 0 < params.maxParts) (h : checkListParts params = .ok ()) :
    ∃ page next, fetchParts parts params = .ok (page, next)
      ∧ page.parts = (parts.above params.partNumberMarker).take (asUsize params.maxParts)
      ∧ page.isTruncated = next.isSome ∧ (next = none →
        (parts.above params.partNumberMarker).length ≤ asUsize params.maxParts)
      ∧ ∀ params', next = some params' →
        ((checkListParts params' = .ok () ∧ params'.maxParts = params.maxParts)
          ∧ (parts.above params.partNumberMarker).drop (asUsize params.maxParts)
            = parts.above params'.partNumberMarker)
        ∧ asUsize params.maxParts < (parts.above params.partNumberMarker).length := by
  have hsize := asUsize_of_checked h
  have hlimits := ensure_eq_ok.mp h
  have hpage := partsPage_eq parts params.partNumberMarker params.maxParts
  have hfetch : fetchParts parts params = .ok
      (partsPage params.partNumberMarker params.maxParts parts.records,
        (partsPage params.partNumberMarker params.maxParts parts.records).nextPartNumberMarker.map
          fun marker => ⟨marker, params.maxParts⟩) := by
    rw [fetchParts, h]
    rfl
  refine ⟨_, _, hfetch, by rw [hpage], ?_, ?_, ?_⟩
  · rw [Option.isSome_map, hpage]
    dsimp only
    split_ifs with hmore
    · exact decide_eq_true hmore
    · exact decide_eq_false hmore
  · intro hnone
    rw [Option.map_eq_none_iff, hpage] at hnone
    dsimp only at hnone
    split_ifs at hnone with hmore
    exact not_lt.mp hmore
  · intro params' hparams
    rcases Option.map_eq_some_iff.mp hparams with ⟨next, hnext, rfl⟩
    rcases above_next (show 0 < asUsize params.maxParts by omega) hnext with ⟨hrange, hrest⟩
    have hchecked : checkListParts ⟨next, params.maxParts⟩ = .ok () := by
      refine ensure_eq_ok.mpr ⟨⟨?_, hrange.2⟩, hlimits.2⟩
      exact hlimits.1.1.trans hrange.1.le
    exact ⟨⟨⟨hchecked, rfl⟩, hrest.1.symm⟩, hrest.2⟩

/-- **Following the pages** of a positive size shows all parts above the marker. -/
theorem followed_parts (h : checkListParts params = .ok ()) (hpos : 0 < params.maxParts) :
    ∃ pages, Followed (fetchParts parts) params pages
      ∧ (pages.map (·.parts)).flatten = parts.above params.partNumberMarker := by
  have hsize := asUsize_of_checked h
  let Left : ListPartsParams → List PartRecord → Prop := fun params' l =>
    (checkListParts params' = .ok () ∧ params'.maxParts = params.maxParts)
      ∧ l = parts.above params'.partNumberMarker
  have hpages : Composes (fetchParts parts) (·.parts) (·.isTruncated) params
      (parts.above params.partNumberMarker) := by
    refine composes_of_pages (L := Left) (show 0 < asUsize params.maxParts by omega) ?_
      ⟨⟨h, rfl⟩, rfl⟩
    rintro params' _ ⟨h', rfl⟩
    have hpage := @fetchParts_page parts params' (h'.2 ▸ hpos) h'.1
    rw [h'.2] at hpage
    exact hpage
  rcases hpages with ⟨pages, hfollowed, hall, _⟩
  exact ⟨pages, hfollowed, hall⟩

/-- **Pages of parts.**  A truncated page has a greater marker, following the markers shows all
    parts above the first one, and a page of size 0 is empty and not truncated, iff pages have a
    positive size or there is nothing to list. -/
theorem parts_pages_complete_iff (parts : PartSet) {bucket key uploadId : Bytes}
    {query : QueryParams} {params : ListPartsParams}
    (h : classifyListParts bucket key uploadId query
      = .ok (.listParts bucket key uploadId params)) :
    let page := partsPage params.partNumberMarker params.maxParts parts.records
    ((page.isTruncated = true →
        ∃ next, page.nextPartNumberMarker = some next ∧ params.partNumberMarker < next)
      ∧ (0 < params.maxParts → ∃ pages, Followed (fetchParts parts) params pages
        ∧ (pages.map (·.parts)).flatten = parts.above params.partNumberMarker)
      ∧ (params.maxParts = 0 → page.parts = [] ∧ page.isTruncated = false)) ↔
    0 < params.maxParts ∨ parts.above params.partNumberMarker = [] := by
  have hchecked := checkListParts_of_classify h
  have hsize := asUsize_of_checked hchecked
  have hlimits := ensure_eq_ok.mp hchecked
  have hpage := partsPage_eq parts params.partNumberMarker params.maxParts
  intro page
  constructor
  · rintro ⟨_, _, hzero⟩
    by_cases hpos : 0 < params.maxParts
    · exact Or.inl hpos
    · right
      have hnot : page.isTruncated = false := (hzero (by omega)).2
      have hle : ¬ asUsize params.maxParts < (parts.above params.partNumberMarker).length := by
        intro hmore
        simp only [page, hpage, decide_eq_true hmore, Bool.true_eq_false] at hnot
      apply List.eq_nil_of_length_eq_zero
      omega
  · intro hwhen
    refine ⟨?_, followed_parts hchecked, ?_⟩
    · intro htruncated
      have hmore : asUsize params.maxParts < (parts.above params.partNumberMarker).length := by
        simpa only [page, hpage, decide_eq_true_eq] using htruncated
      have hpos : 0 < params.maxParts := hwhen.resolve_right fun hnil => by
        rw [hnil] at hmore
        exact absurd hmore (Nat.not_lt_zero _)
      cases hnext : page.nextPartNumberMarker with
      | none => simp only [page, hpage, if_pos hmore, reduceCtorEq] at hnext
      | some next =>
        rcases above_next (show 0 < asUsize params.maxParts by omega) hnext with ⟨hrange, _⟩
        exact ⟨next, rfl, hrange.1⟩
    · intro hzero
      have hnil := hwhen.resolve_left (by omega)
      simp [page, hpage, hnil]

end Following

def threeParts : PartSet where
  records := [⟨1, 5, [], [], 0⟩, ⟨3, 5, [], [], 0⟩, ⟨10000, 2, [], [], 0⟩]
  increasing := by decide
  inRange := by decide

def sizeQuery (size : String) : QueryParams :=
  ⟨[⟨Protocol.ascii "max-parts", Protocol.ascii size, Protocol.ascii "max-parts",
    Protocol.ascii size⟩]⟩

theorem parts_pages_complete_iff_three_parts :
    (∃ page, fetchParts threeParts ⟨0, 2⟩ = .ok (page, some ⟨3, 2⟩)) ∧
    ∃ pages, Followed (fetchParts threeParts) ⟨0, 2⟩ pages
      ∧ (pages.map (·.parts)).flatten = threeParts.records := by
  have hroute : classifyListParts [] [] [] (sizeQuery "2")
      = .ok (.listParts [] [] [] ⟨0, 2⟩) := by
    decide +kernel
  exact ⟨⟨_, rfl⟩,
    ((parts_pages_complete_iff threeParts hroute).mpr (Or.inl (by decide))).2.1 (by decide)⟩

/-- `max-parts=0` while there is a part to list: the page is empty and truncated, and its marker
    is that of the request, so a client that follows it never gets on. -/
theorem empty_page_truncated : classifyListParts [] [] [] (sizeQuery "0")
        = .ok (.listParts [] [] [] ⟨0, 0⟩)
      ∧ partsPage 0 0 threeParts.records = ⟨0, some 0, 0, true, []⟩
      ∧ fetchParts threeParts ⟨0, 0⟩ = .ok (⟨0, some 0, 0, true, []⟩, some ⟨0, 0⟩) := by
  decide +kernel

end S3

end Pgs3
