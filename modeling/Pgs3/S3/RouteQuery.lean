import Pgs3.S3.RouteAgree

/-!
# What routing does with the rest of the query

A route is chosen by the method, the path and a few flags of the query.  Some arms of the
router then check every name of the query against the parameters of their operation and some
do not.  This module says which request gets every one of its inputs accounted for, and which
operations are still found when a request is presigned.
-/

namespace Pgs3.S3

open Pgs3 Foundation Protocol

/-! ## 1. Reading a query -/

def Present (query : QueryParams) (name : String) : Prop := query.getAll (ascii name) ≠ []

instance (query : QueryParams) (name : String) : Decidable (Present query name) :=
  inferInstanceAs (Decidable (_ ≠ _))

/-- Every name of the query is one of these, a parameter of a presigned URL or `x-id`. -/
def Within (query : QueryParams) (names : List String) : Prop :=
  ∀ pair ∈ query.pairs, pair.name ∈ (names ++ presignNames ++ ["x-id"]).map ascii

instance (query : QueryParams) (names : List String) : Decidable (Within query names) :=
  inferInstanceAs (Decidable (∀ pair ∈ query.pairs, _))

section Reading

variable {query : QueryParams} {name : String}

theorem atMostOnce_eq_ok {values : List Bytes} : atMostOnce query name = .ok values ↔
      (query.getAll (ascii name)).length ≤ 1 ∧ values = query.getAll (ascii name) := by
  simp only [atMostOnce, bind_eq_ok, pure_eq_ok, ensure_eq_ok]
  constructor
  · rintro ⟨_, hone, rfl⟩
    exact ⟨hone, rfl⟩
  · rintro ⟨hone, rfl⟩
    exact ⟨(), hone, rfl⟩

theorem present_of_hasFlag {flag : Bool} (h : hasFlag query name = .ok flag) :
    flag = true ↔ Present query name := by
  simp only [hasFlag, bind_eq_ok, pure_eq_ok, atMostOnce_eq_ok] at h
  rcases h with ⟨_, ⟨hone, rfl⟩, rfl⟩
  unfold Present
  rw [decide_eq_true_iff, ← List.length_pos_iff]
  omega

theorem getAll_of_optionalOne_some {value : Bytes}
    (h : optionalOne query name = .ok (some value)) : query.getAll (ascii name) = [value] := by
  simp only [optionalOne, bind_eq_ok, atMostOnce_eq_ok] at h
  rcases h with ⟨_, ⟨hone, rfl⟩, h⟩
  cases hvalues : query.getAll (ascii name) with
  | nil => simp [hvalues] at h
  | cons first rest =>
    rw [hvalues, List.length_cons] at hone
    rw [hvalues] at h
    have hrest : rest = [] := List.eq_nil_of_length_eq_zero (by omega)
    simp only [List.head?_cons, Option.mapM_some, asText, bind_eq_ok, map_eq_ok,
      pure_eq_ok] at h
    rcases h with ⟨_, ⟨_, _, rfl⟩, hvalue⟩
    rw [hrest, Option.some.inj hvalue]

theorem present_of_optionalOne {value : Option Bytes} (h : optionalOne query name = .ok value) :
    value.isSome ↔ Present query name := by
  cases value with
  | none => simp [Present, getAll_of_optionalOne h]
  | some value => simp [Present, getAll_of_optionalOne_some h]

theorem present_of_optionalI32 {value : Option Int} (h : optionalI32 query name = .ok value) :
    value.isSome ↔ Present query name := by
  simp only [optionalI32, bind_eq_ok] at h
  rcases h with ⟨text, htext, h⟩
  rw [← present_of_optionalOne htext]
  cases text with
  | none =>
    simp only [Option.mapM_none, pure_eq_ok] at h
    simp [← h]
  | some text =>
    simp only [Option.mapM_some, map_eq_ok] at h
    rcases h with ⟨_, _, rfl⟩
    simp

theorem validateQueryNames_eq_ok {allowed : List String} {u : Unit} :
    validateQueryNames query allowed = .ok u ↔
      ∀ pair ∈ query.pairs, validUtf8 pair.name = true ∧ pair.name ∈ allowed.map ascii := by
  rw [validateQueryNames, forM_eq_ok]
  apply forall₂_congr
  intro pair _
  simp only [validateQueryName, asText, bind_eq_ok, ensure_eq_ok, pure_eq_ok]
  constructor
  · rintro ⟨_, ⟨_, htext, rfl⟩, hname⟩
    exact ⟨htext, hname⟩
  · rintro ⟨htext, hname⟩
    exact ⟨_, ⟨(), htext, rfl⟩, hname⟩

theorem within_of_validateQueryNames {allowed names : List String} {u : Unit}
    (h : validateQueryNames query allowed = .ok u)
    (hsub : allowed ⊆ names ++ presignNames ++ ["x-id"]) : Within query names := by
  intro pair hpair
  exact List.map_subset ascii hsub (validateQueryNames_eq_ok.mp h pair hpair).2

end Reading

/-! ## 2. Inputs that are accounted for -/

/-- What both listings of objects read. -/
def listNames : List String := ["list-type", "prefix", "delimiter", "max-keys", "encoding-type"]

/-- The query parameters of an operation. -/
def Operation.parameters : Operation → List String
  | .listBuckets | .createBucket _ | .deleteBucket _ | .headBucket _ => []
  | .getBucketLocation _ => ["location"]
  | .getBucketVersioning _ => ["versioning"]
  | .listObjectsV1 _ _ => listNames ++ ["marker"]
  | .listObjectsV2 _ _ => listNames ++ ["start-after", "continuation-token", "fetch-owner"]
  | .listObjectVersions _ _ =>
      ["versions", "prefix", "delimiter", "key-marker", "version-id-marker", "max-keys",
        "encoding-type"]
  | .putObject _ _ | .copyObject _ _ _ => []
  | .restoreObject _ _ _ => ["restore", "versionId"]
  | .getObject _ _ _ | .headObject _ _ _ | .deleteObject _ _ _ => ["versionId"]
  | .deleteObjects _ => ["delete"]
  | .createMultipartUpload _ _ => ["uploads"]
  | .uploadPart _ _ _ _ => ["uploadId", "partNumber"]
  | .completeMultipartUpload _ _ _ | .abortMultipartUpload _ _ _ => ["uploadId"]
  | .listParts _ _ _ _ => ["uploadId", "part-number-marker", "max-parts", "encoding-type"]

def Operation.isCopy : Operation → Bool
  | .copyObject _ _ _ => true
  | _ => false

def HasCopySource (headers : HeaderMap) : Prop :=
  (headers.get (ascii "x-amz-copy-source")).isSome

instance (headers : HeaderMap) : Decidable (HasCopySource headers) :=
  inferInstanceAs (Decidable (_ = true))

/-- The operation takes notice of every name of the query and of the copy source. -/
@[mk_iff]
structure Accounted (request : RequestHead) (operation : Operation) : Prop where
  names : Within request.target.query operation.parameters
  source : HasCopySource request.headers → operation.isCopy

/-- The names that the arm of a bucket's request reads, where that arm does not check the
    query against them.  The two listings of objects have one check for both. -/
def bucketUnchecked (method : Bytes) (query : QueryParams) : Option (List String) :=
  if method = ascii "GET" then
    if Present query "location" then some ["location"]
    else if Present query "versioning" then some ["versioning"]
    else if Present query "versions" then none
    else if query.getAll (ascii "list-type") = [ascii "2"] then
      some (listNames ++ ["start-after", "continuation-token", "fetch-owner"])
    else some (listNames ++ ["marker"])
  else if method = ascii "POST" then some ["delete"]
  else none

/-- The same for the request of an object. -/
def objectUnchecked (method : Bytes) (query : QueryParams) (headers : HeaderMap) :
    Option (List String) :=
  if method = ascii "POST" then
    if Present query "uploads" then some ["uploads"]
    else if Present query "uploadId" then some ["uploadId"]
    else some ["restore", "versionId"]
  else if method = ascii "PUT" then
    if Present query "uploadId" ∧ Present query "partNumber" then some ["uploadId", "partNumber"]
    else if HasCopySource headers then some []
    else none
  else if method = ascii "DELETE" ∧ Present query "uploadId" then some ["uploadId"]
  else none

/-- The names that the arm of a request reads, where that arm does not check the query. -/
def uncheckedNames (request : RequestHead) : Option (List String) :=
  match parsePathStyle request.target.rawPath with
  | .ok ⟨some _, key⟩ =>
      if (key.filter nonempty).isSome then
        objectUnchecked request.method request.target.query request.headers
      else bucketUnchecked request.method request.target.query
  | _ => none

/-- On the arms that do not check their query, it has no other names; and a copy source is
    sent only where it is looked for. -/
@[mk_iff]
structure Heeded (request : RequestHead) : Prop where
  names : ∀ names ∈ uncheckedNames request, Within request.target.query names
  source : HasCopySource request.headers → ReadsCopySource request

section Arms

variable {query : QueryParams} {method bucket key : Bytes} {operation : Operation}

/-- An arm that reads these names and leaves the query unchecked. -/
theorem within_iff_unchecked {names : List String} {unchecked : Option (List String)}
    (h : unchecked = some names) :
    Within query names ↔ ∀ names ∈ unchecked, Within query names := by
  rw [h]
  constructor
  · intro hwithin _ hmem
    rwa [← Option.some.inj hmem]
  · intro hwithin
    exact hwithin names rfl

/-- An arm that checks its query. -/
theorem within_iff_checked {names : List String} {unchecked : Option (List String)}
    (h : unchecked = none) (hwithin : Within query names) :
    Within query names ↔ ∀ names ∈ unchecked, Within query names := by
  rw [h]
  constructor
  · intro _ _ hmem
    cases hmem
  · intro _
    exact hwithin

theorem classifyList_accounts {listType : Option Bytes} {params : ListParams}
    (h : (match listType with
      | none => return .listObjectsV1 bucket params
      | some value =>
          if value = ascii "1" then return .listObjectsV1 bucket params
          else if value = ascii "2" then return .listObjectsV2 bucket params
          else throw (invalidRequest "list-type must be 1 or 2") : Except S3Error Operation)
        = .ok operation)
    (hlist : optionalOne query "list-type" = .ok listType) :
    operation.isCopy = false ∧ some operation.parameters =
      if query.getAll (ascii "list-type") = [ascii "2"] then
        some (listNames ++ ["start-after", "continuation-token", "fetch-owner"])
      else some (listNames ++ ["marker"]) := by
  cases listType with
  | none =>
    rw [getAll_of_optionalOne hlist, if_neg (by simp)]
    rw [← Except.ok.inj h]
    exact ⟨rfl, rfl⟩
  | some value =>
    rw [getAll_of_optionalOne_some hlist]
    dsimp only at h
    split at h
    · rename_i hone
      rw [hone, if_neg (by decide), ← Except.ok.inj h]
      exact ⟨rfl, rfl⟩
    · split at h
      · rename_i htwo
        rw [htwo, if_pos rfl, ← Except.ok.inj h]
        exact ⟨rfl, rfl⟩
      · cases h

theorem classifyBucket_accounts (h : classifyBucket method bucket query = .ok operation) :
    operation.isCopy = false ∧ (Within query operation.parameters ↔
      ∀ names ∈ bucketUnchecked method query, Within query names) := by
  have hempty : query.pairs = [] → Within query [] := by
    intro hnil pair hpair
    rw [hnil] at hpair
    cases hpair
  have hplain : ∀ method, method ≠ ascii "GET" → method ≠ ascii "POST" →
      bucketUnchecked method query = none := by
    intro method hget hpost
    rw [bucketUnchecked, if_neg hget, if_neg hpost]
  unfold classifyBucket at h
  split at h
  · rename_i hput
    rw [← Except.ok.inj h, hput.1]
    exact ⟨rfl, within_iff_checked (hplain _ (by decide) (by decide)) (hempty hput.2)⟩
  split at h
  · rename_i hdelete
    rw [← Except.ok.inj h, hdelete.1]
    exact ⟨rfl, within_iff_checked (hplain _ (by decide) (by decide)) (hempty hdelete.2)⟩
  split at h
  · rename_i hhead
    rw [← Except.ok.inj h, hhead.1]
    exact ⟨rfl, within_iff_checked (hplain _ (by decide) (by decide)) (hempty hhead.2)⟩
  split at h
  · -- `GET`: the flags in the order of the source, then the listings.
    rename_i hget
    rw [bucketUnchecked, if_pos hget]
    rcases bind_eq_ok.mp h with ⟨location, hlocation, h⟩
    split at h
    · rename_i hflag
      rw [if_pos ((present_of_hasFlag hlocation).mp hflag), ← Except.ok.inj h]
      exact ⟨rfl, within_iff_unchecked rfl⟩
    rename_i hflag
    rw [if_neg (mt (present_of_hasFlag hlocation).mpr hflag)]
    rcases bind_eq_ok.mp h with ⟨versioning, hversioning, h⟩
    split at h
    · rename_i hflag
      rw [if_pos ((present_of_hasFlag hversioning).mp hflag), ← Except.ok.inj h]
      exact ⟨rfl, within_iff_unchecked rfl⟩
    rename_i hflag
    rw [if_neg (mt (present_of_hasFlag hversioning).mpr hflag)]
    rcases bind_eq_ok.mp h with ⟨versions, hversions, h⟩
    split at h
    · rename_i hflag
      rcases bind_eq_ok.mp h with ⟨params, hparams, h⟩
      rw [if_pos ((present_of_hasFlag hversions).mp hflag), ← Except.ok.inj h]
      rcases bind_eq_ok.mp hparams with ⟨_, hnames, _⟩
      apply And.intro rfl
      apply within_iff_checked rfl
      exact within_of_validateQueryNames hnames (List.subset_append_left _ _)
    rename_i hflag
    rw [if_neg (mt (present_of_hasFlag hversions).mpr hflag)]
    rcases bind_eq_ok.mp h with ⟨listType, hlist, h⟩
    rcases bind_eq_ok.mp h with ⟨params, _, h⟩
    rcases classifyList_accounts h hlist with ⟨hcopy, hread⟩
    exact ⟨hcopy, within_iff_unchecked hread.symm⟩
  split at h
  · rename_i hget hpost
    rw [bucketUnchecked, if_neg hget, if_pos hpost]
    rcases bind_eq_ok.mp h with ⟨delete, _, h⟩
    split at h
    · rw [← Except.ok.inj h]
      exact ⟨rfl, within_iff_unchecked rfl⟩
    · cases h
  · cases h

variable {headers : HeaderMap}

theorem classifyPut_accounts (h : classifyPut bucket key query headers = .ok operation) :
    (operation.isCopy ↔ HasCopySource headers) ∧ (Within query operation.parameters ↔
      ∀ names ∈ (if HasCopySource headers then some [] else none), Within query names) := by
  unfold classifyPut at h
  split at h
  · rename_i hsource
    change HasCopySource headers at hsource
    rcases bind_eq_ok.mp h with ⟨source, _, h⟩
    rw [← Except.ok.inj h, if_pos hsource]
    exact ⟨iff_of_true rfl hsource, within_iff_unchecked rfl⟩
  · rename_i hsource
    change ¬ HasCopySource headers at hsource
    rcases bind_eq_ok.mp h with ⟨_, hquery, h⟩
    rcases bind_eq_ok.mp hquery with ⟨_, hnames, _⟩
    rw [← Except.ok.inj h, if_neg hsource]
    exact ⟨iff_of_false Bool.false_ne_true hsource,
      within_iff_checked rfl (within_of_validateQueryNames hnames (List.Subset.refl _))⟩

theorem onlyVersionQuery_within {operationId : String} {u : Unit}
    (h : onlyVersionQuery query operationId = .ok u) : Within query ["versionId"] := by
  rcases bind_eq_ok.mp h with ⟨_, hnames, _⟩
  exact within_of_validateQueryNames hnames (List.Subset.refl _)

theorem classifyListParts_within {uploadId : Bytes}
    (h : classifyListParts bucket key uploadId query = .ok operation) :
    operation.isCopy = false ∧ Within query operation.parameters := by
  simp only [classifyListParts, bind_eq_ok, pure_eq_ok] at h
  rcases h with ⟨_, hnames, _, _, _, _, _, _, _, _, _, _, rfl⟩
  exact ⟨rfl, within_of_validateQueryNames hnames (List.subset_append_left _ _)⟩

theorem isCopy_iff_of_ne (hmethod : method ≠ ascii "PUT") (hcopy : operation.isCopy = false) :
    operation.isCopy ↔ CopyArm method query ∧ HasCopySource headers := by
  rw [hcopy]
  exact iff_of_false (by decide) fun hboth => hmethod hboth.1.1

theorem classifyObject_accounts
    (h : classifyObject method bucket key query headers = .ok operation) :
    (operation.isCopy ↔ CopyArm method query ∧ HasCopySource headers) ∧
      (Within query operation.parameters ↔
        ∀ names ∈ objectUnchecked method query headers, Within query names) := by
  simp only [classifyObject, bind_eq_ok] at h
  rcases h with ⟨uploadId, hupload, versionId, hversion, partNumber, hpart, h⟩
  have hid := present_of_optionalOne hupload
  have hnumber := present_of_optionalI32 hpart
  split at h
  · rename_i hpost
    have hne : method ≠ ascii "PUT" := by
      rw [hpost]
      decide
    rw [objectUnchecked, if_pos hpost]
    rcases bind_eq_ok.mp h with ⟨uploads, huploads, h⟩
    split at h
    · rename_i hflag
      rw [if_pos ((present_of_hasFlag huploads).mp hflag), ← Except.ok.inj h]
      exact ⟨isCopy_iff_of_ne hne rfl, within_iff_unchecked rfl⟩
    rename_i hflag
    rw [if_neg (mt (present_of_hasFlag huploads).mpr hflag)]
    cases uploadId with
    | some uploadId =>
      rcases bind_eq_ok.mp h with ⟨_, _, h⟩
      rw [if_pos (hid.mp rfl), ← Except.ok.inj h]
      exact ⟨isCopy_iff_of_ne hne rfl, within_iff_unchecked rfl⟩
    | none =>
      rw [if_neg (mt hid.mpr (by decide))]
      rcases bind_eq_ok.mp h with ⟨restore, _, h⟩
      split at h
      · rcases bind_eq_ok.mp h with ⟨version, _, h⟩
        rw [← Except.ok.inj h]
        exact ⟨isCopy_iff_of_ne hne rfl, within_iff_unchecked rfl⟩
      · cases h
  rename_i hpost
  rw [objectUnchecked, if_neg hpost]
  split at h
  · -- `PUT`: a part of an upload, a copy or an object.
    rename_i hput
    rw [if_pos hput]
    split at h
    · rename_i uploadId partNumber
      rcases bind_eq_ok.mp h with ⟨_, _, h⟩
      have hboth : Present query "uploadId" ∧ Present query "partNumber" :=
        ⟨hid.mp rfl, hnumber.mp rfl⟩
      rw [if_pos hboth, ← Except.ok.inj h]
      apply And.intro _ (within_iff_unchecked rfl)
      apply iff_of_false Bool.false_ne_true
      rintro ⟨⟨_, hnone⟩, _⟩
      rcases hnone with hnone | hnone
      · exact hboth.1 hnone
      · exact hboth.2 hnone
    · rename_i hnone
      have hone : ¬ (Present query "uploadId" ∧ Present query "partNumber") := by
        rw [← hid, ← hnumber, Option.isSome_iff_exists, Option.isSome_iff_exists]
        rintro ⟨⟨id, rfl⟩, number, rfl⟩
        exact hnone id number rfl rfl
      have harm : CopyArm method query := by
        apply And.intro hput
        unfold Present at hone
        by_cases hupload : query.getAll (ascii "uploadId") = []
        · exact .inl hupload
        · by_cases hpart : query.getAll (ascii "partNumber") = []
          · exact .inr hpart
          · exact absurd ⟨hupload, hpart⟩ hone
      rw [if_neg hone]
      rcases classifyPut_accounts h with ⟨hcopy, hwithin⟩
      exact ⟨hcopy.trans (and_iff_right harm).symm, hwithin⟩
  rename_i hput
  rw [if_neg hput]
  split at h
  · rename_i hdelete
    cases uploadId with
    | some uploadId =>
      rcases bind_eq_ok.mp h with ⟨_, _, h⟩
      rw [if_pos ⟨hdelete, hid.mp rfl⟩, ← Except.ok.inj h]
      exact ⟨isCopy_iff_of_ne hput rfl, within_iff_unchecked rfl⟩
    | none =>
      rcases bind_eq_ok.mp h with ⟨_, hquery, h⟩
      have habsent : ¬ Present query "uploadId" := mt hid.mpr (by decide)
      rw [if_neg fun hboth => habsent hboth.2, ← Except.ok.inj h]
      exact ⟨isCopy_iff_of_ne hput rfl, within_iff_checked rfl (onlyVersionQuery_within hquery)⟩
  rename_i hdelete
  rw [if_neg fun hboth => hdelete hboth.1]
  split at h
  · cases uploadId with
    | some uploadId =>
      rcases classifyListParts_within h with ⟨hcopy, hwithin⟩
      exact ⟨isCopy_iff_of_ne hput hcopy, within_iff_checked rfl hwithin⟩
    | none =>
      rcases bind_eq_ok.mp h with ⟨_, hquery, h⟩
      rw [← Except.ok.inj h]
      exact ⟨isCopy_iff_of_ne hput rfl, within_iff_checked rfl (onlyVersionQuery_within hquery)⟩
  split at h
  · rcases bind_eq_ok.mp h with ⟨_, hquery, h⟩
    rw [← Except.ok.inj h]
    exact ⟨isCopy_iff_of_ne hput rfl, within_iff_checked rfl (onlyVersionQuery_within hquery)⟩
  · cases h

end Arms

/-- **Routing accounts for every input** of a request that it accepts exactly when the request
    has no input that its arm passes over. -/
theorem routing_accounts_iff {request : RequestHead} {operation : Operation}
    (h : classify request = .ok operation) : Accounted request operation ↔ Heeded request := by
  rw [accounted_iff, heeded_iff]
  rcases bind_eq_ok.mp h with ⟨⟨bucket, key⟩, hpath, h⟩
  rw [asInvalidRequest, mapError_eq_ok] at hpath
  unfold uncheckedNames ReadsCopySource
  rw [hpath]
  cases bucket with
  | none =>
    dsimp only at h
    split at h
    · rename_i hroot
      rw [← Except.ok.inj h]
      apply and_congr
      · apply within_iff_checked rfl
        intro pair hpair
        rw [hroot.2] at hpair
        cases hpair
      · apply imp_congr_right
        intro _
        exact iff_of_false Bool.false_ne_true (by simp)
    · cases h
  | some bucket =>
    cases hkey : key.filter nonempty with
    | none =>
      simp only [hkey] at h ⊢
      rcases classifyBucket_accounts h with ⟨hcopy, hwithin⟩
      apply and_congr
      · simpa using hwithin
      · apply imp_congr_right
        intro _
        rw [hcopy]
        apply iff_of_false Bool.false_ne_true
        rintro ⟨_, _, name, hsome, hne⟩
        cases hsome
        simp [nonempty, hne] at hkey
    | some name =>
      simp only [hkey] at h ⊢
      rcases classifyObject_accounts h with ⟨hcopy, hwithin⟩
      apply and_congr
      · simpa using hwithin
      · apply imp_congr_right
        intro hsource
        rw [hcopy, and_iff_left hsource]
        rcases Option.filter_eq_some_iff.mp hkey with ⟨rfl, hne⟩
        apply (and_iff_left _).symm
        exact ⟨bucket, name, rfl, by simpa [nonempty] using hne⟩

instance (request : RequestHead) (operation : Operation) :
    Decidable (Accounted request operation) :=
  decidable_of_iff _ (accounted_iff request operation).symm

/-- The head that the parser reads off a text with its default limits. -/
def headOf (text : String) : Option RequestHead :=
  ((RequestHeadParser.new {}).push (ascii text)).1.toOption.join

theorem routing_accounts_iff_upload_part :
    ∃ head ∈ headOf "PUT /b/k?partNumber=7&uploadId=u HTTP/1.1\r\nHost: h\r\n\r\n",
      classify head = .ok (.uploadPart (ascii "b") (ascii "k") (ascii "u") 7)
        ∧ Accounted head (.uploadPart (ascii "b") (ascii "k") (ascii "u") 7) ∧ Heeded head := by
  have heval : (headOf "PUT /b/k?partNumber=7&uploadId=u HTTP/1.1\r\nHost: h\r\n\r\n").any
      (fun head =>
        decide (classify head = .ok (.uploadPart (ascii "b") (ascii "k") (ascii "u") 7)
          ∧ Accounted head (.uploadPart (ascii "b") (ascii "k") (ascii "u") 7))) = true := by
    decide +kernel
  rcases (Option.any_eq_true _ _).mp heval with ⟨head, hhead, h⟩
  rcases of_decide_eq_true h with ⟨hroute, haccounted⟩
  exact ⟨head, hhead, hroute, haccounted, (routing_accounts_iff hroute).mp haccounted⟩

/-- An unknown sub-resource beside `location` is passed over, and so are the copy source of a
    part and the marker of the other listing. -/
theorem inputs_passed_over : (∃ head ∈ headOf "GET /b?location&acl HTTP/1.1\r\nHost: h\r\n\r\n",
      classify head = .ok (.getBucketLocation (ascii "b"))
        ∧ ¬ Accounted head (.getBucketLocation (ascii "b")))
    ∧ (∃ head ∈ headOf ("PUT /b/k?partNumber=7&uploadId=u HTTP/1.1\r\nHost: h\r\n" ++
          "x-amz-copy-source: /a/c\r\n\r\n"),
      classify head = .ok (.uploadPart (ascii "b") (ascii "k") (ascii "u") 7)
        ∧ ¬ Accounted head (.uploadPart (ascii "b") (ascii "k") (ascii "u") 7))
    ∧ (∃ head ∈ headOf "GET /b?list-type=2&marker=m HTTP/1.1\r\nHost: h\r\n\r\n",
      ∃ params, classify head = .ok (.listObjectsV2 (ascii "b") params)
        ∧ ¬ Accounted head (.listObjectsV2 (ascii "b") params)) := by
  have hread : ∀ (text : String) (operation : Operation),
      (headOf text).any (fun head => decide (classify head = .ok operation
        ∧ ¬ Accounted head operation)) = true →
      ∃ head ∈ headOf text, classify head = .ok operation ∧ ¬ Accounted head operation := by
    intro text operation heval
    rcases (Option.any_eq_true _ _).mp heval with ⟨head, hhead, h⟩
    exact ⟨head, hhead, of_decide_eq_true h⟩
  let params : ListParams :=
    { namePrefix := [], delimiter := none, marker := some (ascii "m"), startAfter := none,
      continuationToken := none, requestedStartAfter := none,
      requestedContinuationToken := none, maxKeys := 1000, encodingTypeUrl := false }
  have hlist := hread "GET /b?list-type=2&marker=m HTTP/1.1\r\nHost: h\r\n\r\n"
    (.listObjectsV2 (ascii "b") params) (by decide +kernel)
  rcases hlist with ⟨head, hhead, hroute⟩
  exact ⟨hread _ _ (by decide +kernel), hread _ _ (by decide +kernel), head, hhead, params, hroute⟩

/-! ## 3. Presigned requests -/

/-- The second query is the first, which has no signing parameters, with one of each, of any
    value and at any place. -/
@[mk_iff]
structure SignedQuery (query query' : QueryParams) : Prop where
  rest : query'.pairs.filter (fun pair => pair.name ∉ signingNames.map ascii) = query.pairs
  once : ∀ name ∈ signingNames, (query'.getAll (ascii name)).length = 1

/-- The second request is the first one presigned. -/
@[mk_iff]
structure Presigned (request request' : RequestHead) : Prop where
  method : request'.method = request.method
  path : request'.target.rawPath = request.target.rawPath
  query : SignedQuery request.target.query request'.target.query
  headers : request'.headers = request.headers

/-- The request names an object, or it is a `GET` or a `POST` on a bucket.  What is left out
    are the arms that want the query to be empty: the list of buckets, and `PUT`, `DELETE` and
    `HEAD` on a bucket. -/
def TakesQuery (request : RequestHead) : Prop :=
  ∃ bucket key, parsePathStyle request.target.rawPath = .ok ⟨some bucket, key⟩
    ∧ ((key.filter nonempty).isSome ∨ request.method = ascii "GET"
      ∨ request.method = ascii "POST")

section Signing

variable {query query' : QueryParams}

namespace SignedQuery

theorem reads (h : SignedQuery query query') : SameReads (signingNames.map ascii) query query' := by
  intro name hname
  have hvalues : query.getAll (ascii name) = query'.getAll (ascii name) := by
    rw [QueryParams.getAll, QueryParams.getAll, ← h.rest, List.filter_filter]
    apply congrArg
    apply List.filter_congr
    intro pair _
    by_cases heq : pair.name = ascii name
    · simp [heq, hname]
    · simp [heq]
  rw [atMostOnce, atMostOnce, hvalues]

theorem validateQueryNames (h : SignedQuery query query') {allowed : List String}
    (hsub : signingNames ⊆ allowed) :
    Carries (validateQueryNames query allowed) (validateQueryNames query' allowed) := by
  rintro ⟨⟩ hok
  rw [validateQueryNames_eq_ok] at hok ⊢
  intro pair hpair
  by_cases hname : pair.name ∈ signingNames.map ascii
  · have hall : ∀ name ∈ signingNames.map ascii, validUtf8 name = true := by decide
    exact ⟨hall _ hname, List.map_subset ascii hsub hname⟩
  · apply hok
    rw [← h.rest]
    exact List.mem_filter.mpr ⟨hpair, by simpa using hname⟩

theorem alike (h : SignedQuery query query') : AlikeFor (fun _ => Carries) query query' :=
  ⟨Carries.compatible, h.reads, fun _ => h.validateQueryNames⟩

end SignedQuery

variable {request : RequestHead}

theorem classify_presigned {request' : RequestHead} (h : Presigned request request')
    (htakes : TakesQuery request) : Carries (classify request) (classify request') := by
  rcases htakes with ⟨bucket, key, hpath, harm⟩
  unfold classify
  rw [h.method, h.path, h.headers, hpath]
  apply Carries.compatible.bind (Carries.compatible.refl _)
  intro path hok
  rw [asInvalidRequest, mapError_eq_ok] at hok
  rw [← Except.ok.inj hok]
  cases hkey : key.filter nonempty with
  | some name =>
    dsimp only
    exact h.query.alike.classifyObject request.method bucket name
      fun _ => ⟨rfl, Carries.compatible.refl _⟩
  | none =>
    dsimp only
    apply h.query.alike.classifyBucket request.method bucket
    intro hempty
    have hmethod : request.method = ascii "GET" ∨ request.method = ascii "POST" := by
      simpa [hkey] using harm
    rcases hmethod with hmethod | hmethod <;> rw [hmethod] at hempty <;>
      exact absurd hempty (by decide)

/-- The arms that do not take a query want none. -/
theorem pairs_eq_nil_of_classify {operation : Operation} (h : classify request = .ok operation)
    (htakes : ¬ TakesQuery request) : request.target.query.pairs = [] := by
  rcases bind_eq_ok.mp h with ⟨⟨bucket, key⟩, hpath, h⟩
  rw [asInvalidRequest, mapError_eq_ok] at hpath
  cases bucket with
  | none =>
    dsimp only at h
    split at h
    · rename_i hroot
      exact hroot.2
    · cases h
  | some bucket =>
    have harm := fun harm => htakes ⟨bucket, key, hpath, harm⟩
    cases hkey : key.filter nonempty with
    | some name => exact absurd (.inl (by rw [hkey]; rfl)) harm
    | none =>
      simp only [hkey, classifyBucket] at h
      split_ifs at h with hput hdelete hhead hget hpost
      · exact hput.2
      · exact hdelete.2
      · exact hhead.2
      · exact absurd (.inr (.inl hget)) harm
      · exact absurd (.inr (.inr hpost)) harm

def presign (request : RequestHead) (value : String → Bytes) : RequestHead :=
  { request with
    target.query.pairs := signingNames.map fun name =>
      ⟨ascii name, value name, ascii name, value name⟩ }

theorem presigned_presign (value : String → Bytes) (h : request.target.query.pairs = []) :
    Presigned request (presign request value) := by
  refine ⟨rfl, rfl, ⟨?_, ?_⟩, rfl⟩
  · rw [h, List.filter_eq_nil_iff]
    intro pair hpair
    rcases List.mem_map.mp hpair with ⟨name, hname, rfl⟩
    simpa using ⟨name, hname, rfl⟩
  · intro name hname
    have hcount : ∀ name ∈ signingNames,
        (signingNames.filter fun other => ascii other = ascii name).length = 1 := by decide
    rw [QueryParams.getAll, List.length_map, presign, List.filter_map, List.length_map]
    exact hcount name hname

end Signing

/-- **Presigning does not change routing**, for a request that is accepted without signing
    parameters, exactly when its arm takes a query. -/
theorem presigned_operation_iff {request : RequestHead} {operation : Operation}
    (h : classify request = .ok operation) :
    (∀ request', Presigned request request' → classify request' = .ok operation)
      ↔ TakesQuery request := by
  constructor
  · intro hall
    by_contra htakes
    have hempty := pairs_eq_nil_of_classify h htakes
    have hsigned := hall _ (presigned_presign (fun _ => []) hempty)
    -- Neither the path nor the method has changed.
    have hnil := pairs_eq_nil_of_classify hsigned htakes
    cases hnil
  · intro htakes request' hsigned
    exact classify_presigned hsigned htakes operation h

theorem presigned_operation_iff_get_object :
    ∃ head ∈ headOf "GET /b/k?versionId=7 HTTP/1.1\r\nHost: h\r\n\r\n",
      classify head = .ok (.getObject (ascii "b") (ascii "k") (some 7)) ∧ TakesQuery head
        ∧ ∀ head', Presigned head head' →
          classify head' = .ok (.getObject (ascii "b") (ascii "k") (some 7)) := by
  have heval : (headOf "GET /b/k?versionId=7 HTTP/1.1\r\nHost: h\r\n\r\n").any (fun head =>
      decide (classify head = .ok (.getObject (ascii "b") (ascii "k") (some 7))
        ∧ parsePathStyle head.target.rawPath = .ok ⟨some (ascii "b"), some (ascii "k")⟩))
      = true := by
    decide +kernel
  rcases (Option.any_eq_true _ _).mp heval with ⟨head, hhead, h⟩
  rcases of_decide_eq_true h with ⟨hroute, hpath⟩
  have htakes : TakesQuery head := ⟨_, _, hpath, .inl (by decide)⟩
  exact ⟨head, hhead, hroute, htakes, (presigned_operation_iff hroute).mpr htakes⟩

instance (query query' : QueryParams) : Decidable (SignedQuery query query') :=
  decidable_of_iff _ (signedQuery_iff query query').symm

instance (request request' : RequestHead) : Decidable (Presigned request request') :=
  decidable_of_iff _ (presigned_iff request request').symm

/-- A presigned `HEAD` of a bucket is not routed. -/
theorem presigned_head_bucket_unsupported : ∃ head ∈ headOf "HEAD /b HTTP/1.1\r\nHost: h\r\n\r\n",
    ∃ head' ∈ headOf ("HEAD /b?X-Amz-Algorithm=a&X-Amz-Credential=c&X-Amz-Date=d" ++
        "&X-Amz-Expires=60&X-Amz-SignedHeaders=host&X-Amz-Signature=s HTTP/1.1\r\n" ++
        "Host: h\r\n\r\n"), classify head = .ok (.headBucket (ascii "b")) ∧ Presigned head head'
        ∧ classify head' = .error unsupported := by
  have heval : (headOf "HEAD /b HTTP/1.1\r\nHost: h\r\n\r\n").any (fun head =>
      (headOf ("HEAD /b?X-Amz-Algorithm=a&X-Amz-Credential=c&X-Amz-Date=d" ++
        "&X-Amz-Expires=60&X-Amz-SignedHeaders=host&X-Amz-Signature=s HTTP/1.1\r\n" ++
        "Host: h\r\n\r\n")).any fun head' =>
      decide (classify head = .ok (.headBucket (ascii "b")) ∧ Presigned head head'
        ∧ classify head' = .error unsupported)) = true := by
    decide +kernel
  rcases (Option.any_eq_true _ _).mp heval with ⟨head, hhead, h⟩
  rcases (Option.any_eq_true _ _).mp h with ⟨head', hhead', h⟩
  exact ⟨head, hhead, head', hhead', of_decide_eq_true h⟩

end Pgs3.S3
