import Pgs3.Protocol.CanonicalRequest
import Pgs3.S3.Route

/-!
# What routing reads

Two requests that agree on the method, on what the path decodes to, on the values of every
query parameter other than the presigning signature, and on the copy source are never routed
to different operations.  The order of the query and the spelling of its escapes do not
matter.
-/

namespace Pgs3.S3

open Pgs3 Foundation Protocol

/-! ## 1. Queries that look alike -/

/-- The two queries have the same values for every parameter that routing reads. -/
structure SameParameters (query query' : QueryParams) : Prop where
  values : ∀ name, name ≠ ascii "X-Amz-Signature" →
    (query.getAll name).Perm (query'.getAll name)
  empty : query.pairs = [] ↔ query'.pairs = []

theorem getAll_eq_covered (query : QueryParams) {presigned : Bool} {name : Bytes}
    (h : ¬ (presigned ∧ name = ascii "X-Amz-Signature")) : (query.getAll name : Multiset Bytes)
      = ((((query.covered presigned).map fun pair => (pair.name, pair.value) :
          List (Bytes × Bytes)) : Multiset (Bytes × Bytes)).filter (·.1 = name)).map (·.2) := by
  rw [Multiset.filter_coe, Multiset.map_coe, List.filter_map, List.map_map,
    QueryParams.covered, List.filter_filter, QueryParams.getAll]
  apply congrArg
  apply congrArg
  apply List.filter_congr
  intro pair _
  by_cases hname : pair.name = name
  · simp only [Function.comp_apply, hname, decide_true, Bool.true_and]
    cases presigned
    · simp
    · simpa using h
  · simp [hname]

theorem getAll_perm {head head' : RequestHead} {presigned : Bool}
    (h : head.coveredPairs presigned = head'.coveredPairs presigned) {name : Bytes}
    (hname : ¬ (presigned ∧ name = ascii "X-Amz-Signature")) :
    (head.target.query.getAll name).Perm (head'.target.query.getAll name) := by
  rw [← Multiset.coe_eq_coe, getAll_eq_covered _ hname, getAll_eq_covered _ hname]
  rw [RequestHead.coveredPairs, RequestHead.coveredPairs] at h
  rw [h]

/-- What a presigned URL adds to the query. -/
def signingNames : List String :=
  ["X-Amz-Algorithm", "X-Amz-Credential", "X-Amz-Date", "X-Amz-Expires", "X-Amz-SignedHeaders",
    "X-Amz-Signature"]

/-- The two queries have the same values for the parameters that may appear once, but for
    those with one of these names. -/
def SameReads (skipped : List Bytes) (query query' : QueryParams) : Prop :=
  ∀ name : String, ascii name ∉ skipped → atMostOnce query name = atMostOnce query' name

section Parameters

variable {query query' : QueryParams}

theorem SameParameters.reads (h : SameParameters query query') :
    SameReads (signingNames.map ascii) query query' := by
  intro name hname
  have hperm := h.values (ascii name) fun heq => hname (heq ▸ by decide)
  unfold atMostOnce
  by_cases hone : (query.getAll (ascii name)).length ≤ 1
  · have heq : query.getAll (ascii name) = query'.getAll (ascii name) := by
      cases hvalues : query.getAll (ascii name) with
      | nil =>
        rw [hvalues] at hperm
        exact hperm.nil_eq
      | cons value values =>
        rw [hvalues, List.length_cons] at hone
        have hnil : values = [] := List.eq_nil_of_length_eq_zero (by omega)
        rw [hvalues, hnil] at hperm
        rw [hnil]
        exact (List.perm_singleton.mp hperm.symm).symm
    rw [heq]
  · have hone' : ¬ (query'.getAll (ascii name)).length ≤ 1 := by rwa [← hperm.length_eq]
    simp only [ensure, if_neg hone, if_neg hone']
    rfl

namespace SameReads

variable {skipped : List Bytes} (h : SameReads skipped query query')

include h

theorem hasFlag (name : String) (hname : ascii name ∉ skipped) :
    hasFlag query name = hasFlag query' name := by
  rw [S3.hasFlag, S3.hasFlag, h name hname]

theorem optionalOne (name : String) (hname : ascii name ∉ skipped) :
    optionalOne query name = optionalOne query' name := by
  rw [S3.optionalOne, S3.optionalOne, h name hname]

theorem optionalI64 (name : String) (hname : ascii name ∉ skipped) :
    optionalI64 query name = optionalI64 query' name := by
  rw [S3.optionalI64, S3.optionalI64, h.optionalOne name hname]

theorem optionalI32 (name : String) (hname : ascii name ∉ skipped) :
    optionalI32 query name = optionalI32 query' name := by
  rw [S3.optionalI32, S3.optionalI32, h.optionalOne name hname]

theorem maxKeys (hname : ascii "max-keys" ∉ skipped) :
    maxKeys query = maxKeys query' := by
  rw [S3.maxKeys, S3.maxKeys, h.optionalI32 _ hname]

theorem encodingType (hname : ascii "encoding-type" ∉ skipped) :
    encodingType query = encodingType query' := by
  rw [S3.encodingType, S3.encodingType, h.optionalOne _ hname]

end SameReads

/-! ## 2. Operations that agree -/

/-- Two queries with the same values but for the signing parameters, and with checks of their
    names that are related where the signing parameters are allowed. -/
structure AlikeFor (R : ∀ α : Type, Except S3Error α → Except S3Error α → Prop)
    (query query' : QueryParams) : Prop where
  compatible : Compatible R
  reads : SameReads (signingNames.map ascii) query query'
  names : ∀ allowed, signingNames ⊆ allowed →
    R Unit (validateQueryNames query allowed) (validateQueryNames query' allowed)

namespace AlikeFor

variable {R : ∀ α : Type, Except S3Error α → Except S3Error α → Prop}
  (h : AlikeFor R query query')

include h

theorem validateXId (operationId : String) :
    R Unit (validateXId query operationId) (validateXId query' operationId) := by
  unfold S3.validateXId
  rw [h.reads.optionalOne "x-id" (by decide)]
  exact h.compatible.refl _

theorem parseList : R ListParams (parseList query) (parseList query') := by
  unfold S3.parseList
  rw [h.reads.optionalOne "start-after" (by decide),
    h.reads.optionalOne "continuation-token" (by decide),
    h.reads.optionalOne "prefix" (by decide), h.reads.optionalOne "delimiter" (by decide),
    h.reads.optionalOne "marker" (by decide), h.reads.maxKeys (by decide),
    h.reads.encodingType (by decide)]
  exact h.compatible.bind (h.names _ (by decide)) fun _ _ => h.compatible.refl _

theorem parseVersionList :
    R VersionListParams (parseVersionList query) (parseVersionList query') := by
  unfold S3.parseVersionList
  rw [h.reads.optionalOne "key-marker" (by decide),
    h.reads.optionalI64 "version-id-marker" (by decide),
    h.reads.optionalOne "prefix" (by decide), h.reads.optionalOne "delimiter" (by decide),
    h.reads.maxKeys (by decide), h.reads.encodingType (by decide)]
  exact h.compatible.bind (h.names _ (by decide)) fun _ _ => h.compatible.refl _

theorem classifyListParts (bucket key uploadId : Bytes) :
    R Operation (classifyListParts bucket key uploadId query)
      (classifyListParts bucket key uploadId query') := by
  unfold S3.classifyListParts
  rw [h.reads.optionalOne "encoding-type" (by decide),
    h.reads.optionalI32 "part-number-marker" (by decide),
    h.reads.optionalI32 "max-parts" (by decide)]
  exact h.compatible.bind (h.names _ (by decide)) fun _ _ => h.compatible.refl _

theorem onlyVersionQuery (operationId : String) (operation : Operation) :
    R Operation (do onlyVersionQuery query operationId; return operation)
      (do onlyVersionQuery query' operationId; return operation) :=
  h.compatible.bind
    (h.compatible.bind (h.names _ (by decide)) fun _ _ => h.validateXId operationId)
    fun _ _ => h.compatible.refl _

theorem classifyBucket (method bucket : Bytes)
    (hempty : method ∈ ["PUT", "DELETE", "HEAD"].map ascii →
      (query.pairs = [] ↔ query'.pairs = [])) :
    R Operation (classifyBucket method bucket query) (classifyBucket method bucket query') := by
  have hsame : ∀ name ∈ ["PUT", "DELETE", "HEAD"],
      (method = ascii name ∧ query.pairs = []) = (method = ascii name ∧ query'.pairs = []) := by
    intro name hname
    apply propext
    apply and_congr_right
    rintro rfl
    exact hempty (List.mem_map_of_mem hname)
  have hrefl : ∀ {α : Type} (x : Except S3Error α), R α x x := h.compatible.refl
  unfold S3.classifyBucket
  simp only [hsame "PUT" (by simp), hsame "DELETE" (by simp), hsame "HEAD" (by simp)]
  rw [h.reads.hasFlag "location" (by decide), h.reads.hasFlag "versioning" (by decide),
    h.reads.hasFlag "versions" (by decide), h.reads.hasFlag "delete" (by decide),
    h.reads.optionalOne "list-type" (by decide)]
  apply Compatible.ite (hrefl _)
  apply Compatible.ite (hrefl _)
  apply Compatible.ite (hrefl _)
  apply Compatible.ite _ (hrefl _)
  apply h.compatible.bind (hrefl _)
  intro location _
  apply Compatible.ite (hrefl _)
  apply h.compatible.bind (hrefl _)
  intro versioning _
  apply Compatible.ite (hrefl _)
  apply h.compatible.bind (hrefl _)
  intro versions _
  apply Compatible.ite
  · exact h.compatible.bind h.parseVersionList fun _ _ => hrefl _
  · apply h.compatible.bind (hrefl _)
    intro listType _
    exact h.compatible.bind h.parseList fun _ _ => hrefl _

end AlikeFor

theorem SameParameters.alike (h : SameParameters query query') :
    AlikeFor (fun _ => Agree) query query' :=
  ⟨Agree.compatible, h.reads, fun _ _ => Agree.unit _ _⟩

/-- The request gets to the arm of `classify_object` that looks for a copy source. -/
def CopyArm (method : Bytes) (query : QueryParams) : Prop :=
  method = ascii "PUT"
    ∧ (query.getAll (ascii "uploadId") = [] ∨ query.getAll (ascii "partNumber") = [])

theorem getAll_of_optionalOne {name : String} (h : optionalOne query name = .ok none) :
    query.getAll (ascii name) = [] := by
  simp only [optionalOne, atMostOnce, bind_eq_ok, pure_eq_ok] at h
  rcases h with ⟨values, ⟨_, _, rfl⟩, h⟩
  cases hvalues : query.getAll (ascii name) with
  | nil => rfl
  | cons value rest => simp [hvalues] at h

theorem getAll_of_optionalI32 {name : String} (h : optionalI32 query name = .ok none) :
    query.getAll (ascii name) = [] := by
  simp only [optionalI32, bind_eq_ok] at h
  rcases h with ⟨value, hvalue, h⟩
  cases value with
  | none => exact getAll_of_optionalOne hvalue
  | some value => simp at h

theorem optionalOne_of_getAll {name : String} (h : query.getAll (ascii name) = []) :
    optionalOne query name = .ok none := by
  rw [optionalOne, atMostOnce, h]
  rfl

theorem AlikeFor.classifyObject {R : ∀ α : Type, Except S3Error α → Except S3Error α → Prop}
    (h : AlikeFor R query query') (method bucket key : Bytes) {headers headers' : HeaderMap}
    (hcopy : CopyArm method query → (headers.get (ascii "x-amz-copy-source")).isSome
          = (headers'.get (ascii "x-amz-copy-source")).isSome
        ∧ R CopySource (parseCopySource headers) (parseCopySource headers')) :
    R Operation (classifyObject method bucket key query headers)
      (classifyObject method bucket key query' headers') := by
  have hrefl : ∀ {α : Type} (x : Except S3Error α), R α x x := h.compatible.refl
  unfold S3.classifyObject
  rw [← h.reads.optionalOne "uploadId" (by decide), ← h.reads.optionalI64 "versionId" (by decide),
    ← h.reads.optionalI32 "partNumber" (by decide), ← h.reads.hasFlag "uploads" (by decide),
    ← h.reads.hasFlag "restore" (by decide)]
  apply h.compatible.bind (hrefl _)
  intro uploadId huploadId
  apply h.compatible.bind (hrefl _)
  intro versionId _
  apply h.compatible.bind (hrefl _)
  intro partNumber hpartNumber
  apply Compatible.ite (hrefl _)
  by_cases hput : method = ascii "PUT"
  · -- Only here are the headers read.
    rw [if_pos hput, if_pos hput]
    have harm : uploadId = none ∨ partNumber = none → CopyArm method query := by
      rintro (rfl | rfl)
      · exact ⟨hput, .inl (getAll_of_optionalOne huploadId)⟩
      · exact ⟨hput, .inr (getAll_of_optionalI32 hpartNumber)⟩
    have hrest : CopyArm method query → R Operation (classifyPut bucket key query headers)
        (classifyPut bucket key query' headers') := by
      intro hreads
      rcases hcopy hreads with ⟨hpresent, hsource⟩
      rw [classifyPut, classifyPut, hpresent]
      apply Compatible.ite
      · exact h.compatible.bind hsource fun _ _ => hrefl _
      · exact h.compatible.bind (h.compatible.bind (h.names _ (by decide)) fun _ _ =>
          h.validateXId "PutObject") fun _ _ => hrefl _
    cases uploadId with
    | none => exact hrest (harm (.inl rfl))
    | some id =>
      cases partNumber with
      | none => exact hrest (harm (.inr rfl))
      | some number => exact hrefl _
  · rw [if_neg hput, if_neg hput]
    apply Compatible.ite
    · cases uploadId with
      | none => exact h.onlyVersionQuery _ _
      | some id => exact hrefl _
    apply Compatible.ite
    · cases uploadId with
      | none => exact h.onlyVersionQuery _ _
      | some id => exact h.classifyListParts bucket key id
    apply Compatible.ite
    · exact h.onlyVersionQuery _ _
    · exact hrefl _

/-- In the arm that looks for a copy source, the rest of the query only has to parse. -/
theorem classifyObject_copyArm {method bucket key : Bytes} {headers : HeaderMap}
    (harm : CopyArm method query) {operation : Operation} :
    classifyObject method bucket key query headers = .ok operation ↔
      (∃ uploadId versionId partNumber, optionalOne query "uploadId" = .ok uploadId
        ∧ optionalI64 query "versionId" = .ok versionId
        ∧ optionalI32 query "partNumber" = .ok partNumber)
      ∧ classifyPut bucket key query headers = .ok operation := by
  rcases harm with ⟨rfl, hnone⟩
  have hmatch : ∀ {uploadId : Option Bytes} {partNumber : Option Int},
      optionalOne query "uploadId" = .ok uploadId →
      optionalI32 query "partNumber" = .ok partNumber → uploadId = none ∨ partNumber = none := by
    intro uploadId partNumber huploadId hpartNumber
    rcases hnone with hnone | hnone
    · rw [optionalOne_of_getAll hnone] at huploadId
      exact .inl (Except.ok.inj huploadId).symm
    · rw [optionalI32, optionalOne_of_getAll hnone] at hpartNumber
      exact .inr (Except.ok.inj hpartNumber).symm
  simp only [classifyObject, bind_eq_ok,
    if_neg (show ¬ ascii "PUT" = ascii "POST" by decide), if_true]
  constructor
  · rintro ⟨uploadId, huploadId, versionId, hversionId, partNumber, hpartNumber, h⟩
    apply And.intro ⟨uploadId, versionId, partNumber, huploadId, hversionId, hpartNumber⟩
    rcases hmatch huploadId hpartNumber with rfl | rfl
    · exact h
    · cases uploadId <;> exact h
  · rintro ⟨⟨uploadId, versionId, partNumber, huploadId, hversionId, hpartNumber⟩, h⟩
    refine ⟨uploadId, huploadId, versionId, hversionId, partNumber, hpartNumber, ?_⟩
    rcases hmatch huploadId hpartNumber with rfl | rfl
    · exact h
    · cases uploadId <;> exact h

end Parameters

/-- Where the copy source of a request is looked for: in a `PUT` on an object that is not the
    upload of a part. -/
def ReadsCopySource (request : RequestHead) : Prop :=
  CopyArm request.method request.target.query
    ∧ ∃ bucket key, parsePathStyle request.target.rawPath = .ok ⟨some bucket, some key⟩ ∧ key ≠ []

/-- **Routing reads nothing else.** -/
theorem classify_agree {request request' : RequestHead} (hmethod : request.method = request'.method)
    (hpath : parsePathStyle request.target.rawPath = parsePathStyle request'.target.rawPath)
    (hquery : SameParameters request.target.query request'.target.query)
    (hcopy : ReadsCopySource request → (request.headers.get (ascii "x-amz-copy-source")).isSome
          = (request'.headers.get (ascii "x-amz-copy-source")).isSome
        ∧ Agree (parseCopySource request.headers) (parseCopySource request'.headers)) :
    Agree (classify request) (classify request') := by
  unfold classify
  rw [← hmethod, ← hpath]
  simp only [← hquery.empty]
  apply Agree.compatible.bind (Agree.compatible.refl _)
  intro path hparsed
  rw [asInvalidRequest, mapError_eq_ok] at hparsed
  rcases path with ⟨bucket, key⟩
  cases bucket with
  | none => exact Agree.compatible.refl _
  | some bucket =>
    cases hkey : key.filter nonempty with
    | none =>
      dsimp only
      exact hquery.alike.classifyBucket request.method bucket fun _ => hquery.empty
    | some name =>
      dsimp only
      apply hquery.alike.classifyObject request.method bucket name
      intro harm
      rcases Option.filter_eq_some_iff.mp hkey with ⟨rfl, hne⟩
      exact hcopy ⟨harm, bucket, name, hparsed, by simpa [nonempty] using hne⟩

end Pgs3.S3
