import Pgs3.S3.CopySource
import Pgs3.S3.RouteAgree

/-!
# What a signature authorizes

A signature is meant to stand for one operation: two requests that verify with the same
secret, scope, date and signature should be routed alike.  Everything that routing reads is
constant on the requests with one canonical form, except for the copy source.  Its header is
signed in a form where runs of blanks are folded, and routed by its raw bytes.
-/

namespace Pgs3.S3

open Pgs3 Foundation Protocol

/-! ## 1. Verification, in both modes -/

inductive AuthMode where
  | header
  | presigned
deriving DecidableEq, Repr

/-- Whether the signature is a parameter of the query and left out of the canonical one. -/
def AuthMode.excludeSignature : AuthMode → Bool
  | header => false
  | presigned => true

def verify (K : Crates) : AuthMode → RequestHead → Bytes → VerificationConfig →
    Except SigV4Error VerifiedSignature
  | .header => verifyHeader K
  | .presigned => verifyPresigned K

/-- The parts of a request that its signature is checked with. -/
structure SignatureParts where
  credential : CredentialScope
  signedHeaders : List Bytes
  signature : Digest32
  amzDate : Bytes
  payloadLiteral : Bytes
deriving DecidableEq

def signatureParts (request : RequestHead) : AuthMode → Except SigV4Error SignatureParts
  | .header => do
      let authorization ← parseHeaderAuthorization request.headers
      let amzDate ← okOr (.missingHeader "x-amz-date") (← oneHeader request.headers "x-amz-date")
      let payloadLiteral ← okOr .missingPayloadHash
        (← oneHeader request.headers "x-amz-content-sha256")
      return {
        credential := authorization.credential
        signedHeaders := authorization.signedHeaders
        signature := authorization.signature
        amzDate := amzDate
        payloadLiteral := payloadLiteral }
  | .presigned => do
      let authorization ← parsePresignedAuthorization request.target.query
      return {
        credential := authorization.credential
        signedHeaders := authorization.signedHeaders
        signature := authorization.signature
        amzDate := authorization.amzDate
        payloadLiteral := ascii "UNSIGNED-PAYLOAD" }

def canonicalOf (request : RequestHead) (mode : AuthMode) : Except SigV4Error Bytes := do
  let parts ← signatureParts request mode
  buildCanonicalRequest request parts.signedHeaders parts.payloadLiteral mode.excludeSignature

def textToSign (K : Crates) (request : RequestHead) (mode : AuthMode) :
    Except SigV4Error Bytes := do
  let parts ← signatureParts request mode
  let canonical ← canonicalOf request mode
  return stringToSign parts.amzDate parts.credential.scope (K.sha256 canonical)

/-- What a successful verification has found out. -/
structure Verified (K : Crates) (secret : Bytes) (mode : AuthMode) (request : RequestHead)
    (parts : SignatureParts) (canonical : Bytes) : Prop where
  found : signatureParts request mode = .ok parts
  listed : ∃ text, parseSignedHeaders text = .ok parts.signedHeaders
  covered : validateSignedHeaders request.headers parts.signedHeaders = .ok ()
  built : buildCanonicalRequest request parts.signedHeaders parts.payloadLiteral
    mode.excludeSignature = .ok canonical
  signed : K.hmacSha256 (deriveSigningKey K secret parts.credential).1
    (stringToSign parts.amzDate parts.credential.scope (K.sha256 canonical)) = parts.signature

theorem parseAttribute_listed {seen seen' : Attributes} {text : Bytes}
    (h : parseAttribute seen text = .ok seen')
    (hseen : ∀ l ∈ seen.signedHeaders, ∃ list, parseSignedHeaders list = .ok l) :
    ∀ l ∈ seen'.signedHeaders, ∃ list, parseSignedHeaders list = .ok l := by
  simp only [parseAttribute, bind_eq_ok] at h
  rcases h with ⟨parts, _, _, _, h⟩
  split at h
  · simp only [bind_eq_ok, pure_eq_ok] at h
    rcases h with ⟨_, _, rfl⟩
    exact hseen
  split at h
  · simp only [bind_eq_ok, pure_eq_ok] at h
    rcases h with ⟨list, hlist, rfl⟩
    rintro l hl
    cases hl
    exact ⟨_, hlist⟩
  split at h
  · simp only [bind_eq_ok, pure_eq_ok] at h
    rcases h with ⟨_, _, rfl⟩
    exact hseen
  · simp at h

variable {headers : HeaderMap}

theorem parseHeaderAuthorization_listed {authorization : HeaderAuthorization}
    (h : parseHeaderAuthorization headers = .ok authorization) :
    ∃ text, parseSignedHeaders text = .ok authorization.signedHeaders := by
  simp only [parseHeaderAuthorization, bind_eq_ok, pure_eq_ok, okOr_eq_ok] at h
  rcases h with ⟨_, _, _, _, _, _, parts, _, _, _, seen, hseen, _, _, signed, hsigned, _, _, rfl⟩
  have hfold : ∀ (texts : List Bytes) (start : Attributes),
      texts.foldlM parseAttribute start = .ok seen →
      (∀ l ∈ start.signedHeaders, ∃ list, parseSignedHeaders list = .ok l) →
      ∀ l ∈ seen.signedHeaders, ∃ list, parseSignedHeaders list = .ok l := by
    intro texts
    induction texts with
    | nil =>
      intro start h hstart
      cases h
      exact hstart
    | cons text texts ih =>
      intro start h hstart
      rw [List.foldlM_cons, bind_eq_ok] at h
      rcases h with ⟨next, hnext, hrest⟩
      exact ih next hrest (parseAttribute_listed hnext hstart)
  exact hfold _ _ hseen (by simp) signed hsigned

variable {K : Crates} {secret : Bytes} {mode : AuthMode} {config : VerificationConfig}
  {result : VerifiedSignature}

theorem verified_of_verify {request : RequestHead}
    (h : verify K mode request secret config = .ok result) :
    ∃ parts canonical, Verified K secret mode request parts canonical := by
  cases mode with
  | header =>
    simp only [verify, verifyHeader, bind_eq_ok, ensure_eq_ok, okOr_eq_ok, verifyHmac,
      decide_eq_true_eq] at h
    rcases h with ⟨authorization, hauthorization, _, _, _, hcovered, dateHeader, hdateHeader,
      amzDate, hdate, _, _, _, _, _, _, _, _, payloadHeader, hpayloadHeader, payloadLiteral,
      hpayload, _, _, _, _, canonical, hcanonical, _, hsigned, _⟩
    refine ⟨⟨authorization.credential, authorization.signedHeaders, authorization.signature,
      amzDate, payloadLiteral⟩, canonical, ?_, parseHeaderAuthorization_listed hauthorization,
      hcovered, hcanonical, hsigned⟩
    simp only [signatureParts, bind_eq_ok, pure_eq_ok, okOr_eq_ok]
    exact ⟨authorization, hauthorization, dateHeader, hdateHeader, amzDate, hdate, payloadHeader,
      hpayloadHeader, payloadLiteral, hpayload, rfl⟩
  | presigned =>
    simp only [verify, verifyPresigned, bind_eq_ok, ensure_eq_ok, verifyHmac,
      decide_eq_true_eq] at h
    rcases h with ⟨authorization, hauthorization, _, _, _, hcovered, _, _, _, _, _, _, canonical,
      hcanonical, _, hsigned, _⟩
    have hlisted : ∃ text, parseSignedHeaders text = .ok authorization.signedHeaders := by
      simp only [parsePresignedAuthorization, bind_eq_ok, pure_eq_ok] at hauthorization
      rcases hauthorization with ⟨_, _, _, _, _, _, _, _, _, _, _, _, _, _, text, _, list, hlist, _,
        _, _, _, _, _, rfl⟩
      exact ⟨text, hlist⟩
    refine ⟨⟨authorization.credential, authorization.signedHeaders, authorization.signature,
      authorization.amzDate, ascii "UNSIGNED-PAYLOAD"⟩, canonical, ?_, hlisted, hcovered,
      hcanonical, hsigned⟩
    simp only [signatureParts, bind_eq_ok, pure_eq_ok]
    exact ⟨authorization, hauthorization, rfl⟩

/-! ## 2. Requests with one signature -/

/-- No two canonical requests of the two requests have the same SHA-256 digest, and no two of
    their strings to sign have the same tag. -/
structure CollisionFree (K : Crates) (mode : AuthMode) (request request' : RequestHead) :
    Prop where
  sha256 : Set.InjOn K.sha256
    {text | canonicalOf request mode = .ok text ∨ canonicalOf request' mode = .ok text}
  hmac : ∀ key, Set.InjOn (K.hmacSha256 key)
    {text | textToSign K request mode = .ok text ∨ textToSign K request' mode = .ok text}

/-- Both requests verify with `secret`, each at a time of its own, and carry the same scope,
    date and signature. -/
structure SameSignature (K : Crates) (secret : Bytes) (mode : AuthMode)
    (request request' : RequestHead) : Prop where
  verified : ∃ config result, verify K mode request secret config = .ok result
  verified' : ∃ config result, verify K mode request' secret config = .ok result
  parts : ∃ parts parts', signatureParts request mode = .ok parts
    ∧ signatureParts request' mode = .ok parts'
    ∧ parts.credential.date = parts'.credential.date
    ∧ parts.credential.region = parts'.credential.region
    ∧ parts.credential.service = parts'.credential.service
    ∧ parts.amzDate = parts'.amzDate ∧ parts.signature = parts'.signature

theorem stringToSign_inj {date scope hash hash' : Bytes}
    (h : stringToSign date scope hash = stringToSign date scope hash') : hash = hash' := by
  simp only [stringToSign, List.append_cancel_left_eq, List.cons.injEq, true_and] at h
  exact hexLower_injective h

variable {request' : RequestHead}

/-- **One signature means one canonical request.** -/
theorem SameSignature.same_canonical {request : RequestHead}
    (h : SameSignature K secret mode request request') (hwell : request.WellFormed)
    (hwell' : request'.WellFormed) (hfree : CollisionFree K mode request request') :
    ∃ parts parts' canonical, Verified K secret mode request parts canonical
      ∧ Verified K secret mode request' parts' canonical
      ∧ SameCanonical request request' parts.signedHeaders parts'.signedHeaders
        parts.payloadLiteral parts'.payloadLiteral mode.excludeSignature := by
  rcases h.verified with ⟨_, _, hverify⟩
  rcases h.verified' with ⟨_, _, hverify'⟩
  rcases verified_of_verify hverify with ⟨parts, canonical, hverified⟩
  rcases verified_of_verify hverify' with ⟨parts', canonical', hverified'⟩
  rcases h.parts with ⟨p, p', hp, hp', hdate, hregion, hservice, hamz, hsignature⟩
  cases hverified.found.symm.trans hp
  cases hverified'.found.symm.trans hp'
  have hcanonical : canonicalOf request mode = .ok canonical := by
    rw [canonicalOf, hverified.found]
    exact hverified.built
  have hcanonical' : canonicalOf request' mode = .ok canonical' := by
    rw [canonicalOf, hverified'.found]
    exact hverified'.built
  have htext : textToSign K request mode = .ok (stringToSign parts.amzDate
      parts.credential.scope (K.sha256 canonical)) := by
    rw [textToSign, hverified.found, hcanonical]
    rfl
  have htext' : textToSign K request' mode = .ok (stringToSign parts'.amzDate
      parts'.credential.scope (K.sha256 canonical')) := by
    rw [textToSign, hverified'.found, hcanonical']
    rfl
  have hkey : deriveSigningKey K secret parts.credential
      = deriveSigningKey K secret parts'.credential := by
    rw [deriveSigningKey, deriveSigningKey, hdate, hregion, hservice]
  have hscope : parts.credential.scope = parts'.credential.scope := by
    rw [CredentialScope.scope, CredentialScope.scope, hdate, hregion, hservice]
  -- The tags are equal, hence the strings to sign, hence the canonical requests.
  have htag := hverified.signed.trans (hsignature.trans hverified'.signed.symm)
  rw [hkey] at htag
  have hsame := hfree.hmac _ (.inl htext) (.inr htext') htag
  rw [hamz, hscope] at hsame
  have hequal : canonical = canonical' := hfree.sha256 (.inl hcanonical) (.inr hcanonical')
    (stringToSign_inj hsame)
  subst hequal
  rcases hverified.listed with ⟨text, hlisted⟩
  rcases hverified'.listed with ⟨text', hlisted'⟩
  exact ⟨parts, parts', canonical, hverified, hverified',
    SameCanonical.of_eq hwell hwell' hlisted hlisted' hverified.built hverified'.built⟩

/-! ## 3. The signed headers -/

theorem HeaderMap.get_eq_head (headers : HeaderMap) (name : Bytes) :
    headers.get name = (headers.getAll name).head? := by
  rw [HeaderMap.get, HeaderMap.getAll, List.head?_map, List.head?_filter]

variable {name : Bytes}

theorem eqIgnoreAsciiCase_iff {field : Header} (h : field.WellFormed)
    (hname : name.map toAsciiLowercase = name) :
    eqIgnoreAsciiCase field.name name = true ↔ field.name = name := by
  rw [eqIgnoreAsciiCase, decide_eq_true_eq, h.lowercase, hname]

theorem validateSignedHeaders_eq_ok {signed : List Bytes}
    (h : validateSignedHeaders headers signed = .ok ()) :
    (∀ name ∈ signed, (headers.get name).isSome = true)
      ∧ ∀ field ∈ headers.fields, (ascii "x-amz-").isPrefixOf field.name = true →
        field.name ≠ ascii "x-amz-content-sha256" → field.name ∈ signed := by
  simp only [validateSignedHeaders, bind_eq_ok] at h
  rcases h with ⟨_, _, _, hpresent, hamz⟩
  have hpresent := forM_eq_ok.mp hpresent
  have hamz := forM_eq_ok.mp hamz
  simp only [ensure_eq_ok] at hpresent hamz
  constructor
  · exact hpresent
  · intro field hfield hprefixed hother
    by_contra hmissing
    exact hamz field hfield ⟨hprefixed, hother, hmissing⟩

theorem copySource_signed {request : RequestHead} (hwell : request.WellFormed)
    {signed : List Bytes} (h : validateSignedHeaders request.headers signed = .ok ()) :
    (request.headers.get (ascii "x-amz-copy-source")).isSome = true
      ↔ ascii "x-amz-copy-source" ∈ signed := by
  rcases validateSignedHeaders_eq_ok h with ⟨hpresent, hamz⟩
  constructor
  · intro hsome
    rw [HeaderMap.get, Option.isSome_map] at hsome
    rcases Option.isSome_iff_exists.mp hsome with ⟨field, hfield⟩
    have hmem := List.mem_of_find?_eq_some hfield
    have hcase : eqIgnoreAsciiCase field.name (ascii "x-amz-copy-source") = true := by
      simpa using List.find?_some hfield
    have hname := (eqIgnoreAsciiCase_iff (hwell.fields field hmem) (by decide)).mp hcase
    rw [← hname]
    apply hamz field hmem
    · rw [hname]
      decide
    · rw [hname]
      decide
  · exact hpresent _

/-! ## 4. Folding blanks -/

theorem foldWhitespace_of_no_blank {value : Bytes} (h : ∀ b ∈ value, isOws b = false)
    (inWhitespace : Bool) : foldWhitespace inWhitespace value = value := by
  induction value generalizing inWhitespace with
  | nil => rfl
  | cons b value ih =>
    have htail := ih (fun c hc => h c (List.mem_cons_of_mem _ hc)) false
    rw [foldWhitespace, h b List.mem_cons_self, htail]
    rfl

theorem normalizeHeaderValue_eq (value : Bytes) : normalizeHeaderValue value
    = if (foldWhitespace true value).getLast? = some 32
      then (foldWhitespace true value).dropLast else foldWhitespace true value := by
  rw [normalizeHeaderValue, foldl_normalizeStep, List.nil_append]

theorem normalizeHeaderValue_of_no_blank {value : Bytes} (h : ∀ b ∈ value, isOws b = false) :
    normalizeHeaderValue value = value := by
  rw [normalizeHeaderValue_eq, foldWhitespace_of_no_blank h, if_neg]
  intro hlast
  have hblank := h 32 (List.mem_of_getLast? hlast)
  cases hblank

variable {w : UInt8}

theorem space_mem_foldWhitespace {value : Bytes} (hw : isOws w = true) (hmem : w ∈ value) :
    32 ∈ foldWhitespace false value := by
  induction value with
  | nil => cases hmem
  | cons b value ih =>
    rw [foldWhitespace]
    by_cases hb : isOws b = true
    · simp [hb]
    · rcases List.mem_cons.mp hmem with rfl | hmem
      · exact absurd hw hb
      · rw [if_neg hb]
        exact List.mem_cons_of_mem _ (ih hmem)

theorem getLast?_foldWhitespace {value : Bytes} {b : UInt8} (hb : isOws b = false)
    (hlast : value.getLast? = some b) (inWhitespace : Bool) :
    (foldWhitespace inWhitespace value).getLast? = some b := by
  induction value generalizing inWhitespace with
  | nil => cases hlast
  | cons c value ih =>
    cases value with
    | nil =>
      have hc : c = b := by simpa using hlast
      rw [foldWhitespace, hc, hb]
      rfl
    | cons d value =>
      have htail := ih (by simpa using hlast)
      have hcons : ∀ (x : UInt8) (flag : Bool),
          (x :: foldWhitespace flag (d :: value)).getLast? = some b := by
        intro x flag
        rw [List.getLast?_cons, htail flag]
        rfl
      rw [foldWhitespace]
      split
      · split
        · exact htail true
        · exact hcons 32 true
      · exact hcons c false

/-- A blank inside a value leaves a space in its normal form. -/
theorem space_mem_normalizeHeaderValue {value : Bytes} (htrimmed : Trimmed value)
    (hw : isOws w = true) (hmem : w ∈ value) : 32 ∈ normalizeHeaderValue value := by
  cases value with
  | nil => cases hmem
  | cons b value =>
    have hb : isOws b = false := htrimmed.1 b rfl
    have hinside : w ∈ value := by
      rcases List.mem_cons.mp hmem with rfl | hmem
      · rw [hb] at hw
        cases hw
      · exact hmem
    rcases List.getLast?_isSome.mpr (List.cons_ne_nil b value) |> Option.isSome_iff_exists.mp
      with ⟨last, hlast⟩
    have hkept := getLast?_foldWhitespace (htrimmed.2 last hlast) hlast true
    rw [normalizeHeaderValue_eq, hkept, if_neg]
    · rw [foldWhitespace, hb]
      exact List.mem_cons_of_mem _ (space_mem_foldWhitespace hw hinside)
    · intro hspace
      have hplain := htrimmed.2 last hlast
      rw [Option.some.inj hspace] at hplain
      cases hplain

theorem normalizeHeaderValue_doubled {left right : Bytes} (hw : isOws w = true) :
    normalizeHeaderValue (left ++ w :: w :: right) = normalizeHeaderValue (left ++ w :: right) := by
  have hstep : ∀ state : Bytes × Bool,
      normalizeStep (normalizeStep state w) w = normalizeStep state w := by
    intro state
    rcases state with ⟨out, inWhitespace⟩
    cases inWhitespace <;> simp [normalizeStep, hw]
  simp only [normalizeHeaderValue, List.foldl_append, List.foldl_cons, hstep]

/-- **Only a value with blanks shares its normal form.** -/
theorem eq_of_normalizeHeaderValue_eq {value value' : Bytes}
    (h : ∀ b ∈ value, isOws b = false) (htrimmed' : Trimmed value')
    (heq : normalizeHeaderValue value = normalizeHeaderValue value') : value = value' := by
  rw [normalizeHeaderValue_of_no_blank h] at heq
  have h' : ∀ b ∈ value', isOws b = false := by
    intro b hb
    by_contra hblank
    rw [Bool.not_eq_false] at hblank
    have hspace := space_mem_normalizeHeaderValue htrimmed' hblank hb
    rw [← heq] at hspace
    have hplain := h 32 hspace
    cases hplain
  rw [heq, normalizeHeaderValue_of_no_blank h']

/-! ## 5. Enough: no blank in the copy source -/

theorem sameParameters_of_covered {request : RequestHead} {parts parts' : SignatureParts}
    {canonical canonical' : Bytes} (h : Verified K secret mode request parts canonical)
    (h' : Verified K secret mode request' parts' canonical')
    (hpairs : request.coveredPairs mode.excludeSignature
      = request'.coveredPairs mode.excludeSignature) :
    SameParameters request.target.query request'.target.query := by
  constructor
  · intro name hname
    exact getAll_perm hpairs fun hsignature => hname hsignature.2
  · cases mode with
    | header =>
      -- Nothing is left out of the query.
      have hall : ∀ r : RequestHead, r.coveredPairs false
          = ((r.target.query.pairs.map fun pair => (pair.name, pair.value) :
            List (Bytes × Bytes)) : Multiset (Bytes × Bytes)) := by
        intro r
        rw [RequestHead.coveredPairs, QueryParams.covered, List.filter_eq_self.mpr (by simp)]
      have hcard := congrArg Multiset.card hpairs
      rw [show AuthMode.header.excludeSignature = false from rfl, hall, hall] at hcard
      simp only [Multiset.coe_card, List.length_map] at hcard
      rw [← List.length_eq_zero_iff, ← List.length_eq_zero_iff, hcard]
    | presigned =>
      -- Both queries have the parameters of the signature.
      have hsome : ∀ {r : RequestHead} {p : SignatureParts},
          signatureParts r .presigned = .ok p → r.target.query.pairs ≠ [] := by
        intro r p hp hnil
        simp only [signatureParts, parsePresignedAuthorization, queryOneStr, queryOne,
          queryOptionalOne, QueryParams.getAll, hnil, List.filter_nil, List.map_nil, bind_eq_ok,
          pure_eq_ok, List.head?_nil, okOr_eq_ok] at hp
        rcases hp with ⟨_, ⟨_, ⟨_, ⟨_, rfl, hnone⟩, _⟩, _⟩, _⟩
        cases hnone
      exact ⟨fun hnil => absurd hnil (hsome h.found), fun hnil => absurd hnil (hsome h'.found)⟩

theorem mem_getAll_trimmed {request : RequestHead} (hwell : request.WellFormed) {value : Bytes}
    (h : value ∈ request.headers.getAll name) : Trimmed value := by
  rcases List.mem_map.mp h with ⟨field, hfield, rfl⟩
  exact (hwell.fields field (List.mem_filter.mp hfield).1).trimmed

/-- The copy source has no space or tab where it is read. -/
def PlainCopySource (request : RequestHead) : Prop :=
  ReadsCopySource request → ∀ value ∈ request.headers.getAll (ascii "x-amz-copy-source"),
    ∀ b ∈ value, isOws b = false

theorem operation_agree {request : RequestHead} (haccepted : request.Accepted)
    (haccepted' : request'.Accepted) (h : SameSignature K secret mode request request')
    (hfree : CollisionFree K mode request request') (hplain : PlainCopySource request) :
    Agree (classify request) (classify request') := by
  have hwell := haccepted.wellFormed
  have hwell' := haccepted'.wellFormed
  rcases h.same_canonical hwell hwell' hfree with
    ⟨parts, parts', canonical, hverified, hverified', hsame⟩
  apply classify_agree hsame.method (hsame.path_eq hwell hwell')
    (sameParameters_of_covered hverified hverified' hsame.pairs_eq)
  intro hreads
  have hsigned := copySource_signed hwell hverified.covered
  have hsigned' := copySource_signed hwell' hverified'.covered
  rw [← hsame.signed_eq] at hsigned'
  constructor
  · rw [Bool.eq_iff_iff, hsigned, hsigned']
  · intro source source' hsource hsource'
    unfold parseCopySource at hsource hsource'
    split at hsource
    · rename_i value hvalue
      split at hsource'
      · rename_i value' hvalue'
        have hmem : ascii "x-amz-copy-source" ∈ parts.signedHeaders := by
          rw [← hsigned, HeaderMap.get_eq_head, hvalue]
          rfl
        have hjoined := hsame.value_eq hmem
        rw [joinedValue, joinedValue, hvalue, hvalue'] at hjoined
        have hequal : value = value' := by
          apply eq_of_normalizeHeaderValue_eq
          · exact hplain hreads value (by simp [hvalue])
          · exact mem_getAll_trimmed hwell' (by rw [hvalue']; simp)
          · simpa using hjoined
        rw [hequal, hsource'] at hsource
        exact (Except.ok.inj hsource).symm
      · simp at hsource'
    · simp at hsource

/-! ## 6. Needed: no blank in the copy source -/

def replaceCopySource (value : Bytes) (field : Header) : Header :=
  if field.name = ascii "x-amz-copy-source" then { field with value := value } else field

/-- The request with another copy source. -/
def withCopySource (request : RequestHead) (value : Bytes) : RequestHead :=
  { request with headers := ⟨request.headers.fields.map (replaceCopySource value)⟩ }

theorem replaceCopySource_name (value : Bytes) (field : Header) :
    (replaceCopySource value field).name = field.name := by
  unfold replaceCopySource
  split <;> rfl

/-- There is one result, so there is nothing for it to collide with. -/
theorem injOn_result {β : Type} (digest : Bytes → β) (result : Except SigV4Error Bytes) :
    Set.InjOn digest {text | result = .ok text ∨ result = .ok text} := by
  intro text htext text' htext' _
  exact Except.ok.inj ((or_self_iff.mp htext).symm.trans (or_self_iff.mp htext'))

section WithCopySource

variable {request : RequestHead} {value : Bytes}

theorem withCopySource_getAll_eq (name : Bytes) : (withCopySource request value).headers.getAll name
      = (request.headers.fields.filter fun field => eqIgnoreAsciiCase field.name name).map
          fun field => (replaceCopySource value field).value := by
  rw [withCopySource, HeaderMap.getAll, List.filter_map, List.map_map]
  simp only [Function.comp_def, replaceCopySource_name]

theorem withCopySource_getAll (hname : name.map toAsciiLowercase ≠ ascii "x-amz-copy-source") :
    (withCopySource request value).headers.getAll name = request.headers.getAll name := by
  rw [withCopySource_getAll_eq, HeaderMap.getAll]
  apply List.map_congr_left
  intro field hfield
  have hmatch : eqIgnoreAsciiCase field.name name = true := (List.mem_filter.mp hfield).2
  unfold replaceCopySource
  split
  · rename_i hcopy
    rw [eqIgnoreAsciiCase, decide_eq_true_eq, hcopy] at hmatch
    exact absurd hmatch.symm hname
  · rfl

variable {old : Bytes}

theorem withCopySource_getAll_copy (hwell : request.WellFormed)
    (hname : name.map toAsciiLowercase = ascii "x-amz-copy-source")
    (hold : request.headers.getAll (ascii "x-amz-copy-source") = [old]) :
    request.headers.getAll name = [old]
      ∧ (withCopySource request value).headers.getAll name = [value] := by
  have hsame : ∀ headers : HeaderMap,
      headers.getAll name = headers.getAll (ascii "x-amz-copy-source") := by
    intro headers
    simp only [HeaderMap.getAll, eqIgnoreAsciiCase, hname,
      show (ascii "x-amz-copy-source").map toAsciiLowercase = ascii "x-amz-copy-source" from rfl]
  rw [hsame, hsame]
  apply And.intro hold
  rw [withCopySource_getAll_eq]
  rw [HeaderMap.getAll] at hold
  have hlength := congrArg List.length hold
  rw [List.length_map, List.length_singleton, List.length_eq_one_iff] at hlength
  rcases hlength with ⟨field, hfield⟩
  have hmem : field ∈ request.headers.fields.filter
      fun field => eqIgnoreAsciiCase field.name (ascii "x-amz-copy-source") := by
    rw [hfield]
    exact List.mem_singleton_self field
  rcases List.mem_filter.mp hmem with ⟨hfields, hmatch⟩
  have hcopy := (eqIgnoreAsciiCase_iff (hwell.fields field hfields) (by decide)).mp hmatch
  rw [hfield]
  simp [replaceCopySource, hcopy]

theorem withCopySource_oneHeader {name : String}
    (hname : (ascii name).map toAsciiLowercase ≠ ascii "x-amz-copy-source") :
    oneHeader (withCopySource request value).headers name = oneHeader request.headers name := by
  rw [oneHeader, oneHeader, withCopySource_getAll hname]

theorem withCopySource_wellFormed (hwell : request.WellFormed) (htrimmed : Trimmed value)
    (hvalid : validFieldValue value = true) : (withCopySource request value).WellFormed := by
  have hhost : (withCopySource request value).headers.getAll (ascii "host")
      = request.headers.getAll (ascii "host") := withCopySource_getAll (by decide)
  constructor
  · exact hwell.method_ne
  · exact hwell.method_token
  · exact hwell.target
  · intro field hfield
    rcases List.mem_map.mp hfield with ⟨before, hbefore, rfl⟩
    have hold := hwell.fields before hbefore
    unfold replaceCopySource
    split
    · exact ⟨hold.name_ne, hold.token, hold.lowercase, htrimmed, hvalid⟩
    · exact hold
  · have hvalidated := hwell.host
    simp only [validateHost, HeaderMap.get_eq_head] at hvalidated ⊢
    rwa [hhost]
  · have hframing := hwell.framing
    unfold bodyFraming at hframing ⊢
    rw [withCopySource_getAll (by decide), withCopySource_getAll (by decide)]
    exact hframing

theorem withCopySource_signatureParts (mode : AuthMode) :
    signatureParts (withCopySource request value) mode = signatureParts request mode := by
  cases mode with
  | header =>
    simp only [signatureParts, parseHeaderAuthorization]
    rw [withCopySource_oneHeader (by decide), withCopySource_oneHeader (by decide),
      withCopySource_oneHeader (by decide)]
  | presigned => rfl

variable (hwell : request.WellFormed)
  (hold : request.headers.getAll (ascii "x-amz-copy-source") = [old])

include hwell hold

theorem withCopySource_validateSignedHeaders (signed : List Bytes) :
    validateSignedHeaders (withCopySource request value).headers signed
      = validateSignedHeaders request.headers signed := by
  have hpresent : ∀ name, ((withCopySource request value).headers.get name).isSome
      = (request.headers.get name).isSome := by
    intro name
    rw [HeaderMap.get_eq_head, HeaderMap.get_eq_head]
    by_cases hname : name.map toAsciiLowercase = ascii "x-amz-copy-source"
    · rcases @withCopySource_getAll_copy _ request value _ hwell hname hold with ⟨hbefore, hafter⟩
      rw [hbefore, hafter]
      rfl
    · rw [withCopySource_getAll hname]
  have hloop : ∀ (check : Bytes → Except SigV4Error Unit) (fields : List Header),
      (fields.map (replaceCopySource value)).forM (fun field => check field.name)
        = fields.forM fun field => check field.name := by
    intro check fields
    induction fields with
    | nil => rfl
    | cons field fields ih =>
      show (check (replaceCopySource value field).name >>= fun _ =>
          (fields.map (replaceCopySource value)).forM fun field => check field.name)
        = (check field.name >>= fun _ => fields.forM fun field => check field.name)
      rw [ih, replaceCopySource_name]
  unfold validateSignedHeaders
  simp only [hpresent]
  rw [show (withCopySource request value).headers.fields
    = request.headers.fields.map (replaceCopySource value) from rfl]
  rw [hloop fun name => ensure (¬ ((ascii "x-amz-").isPrefixOf name = true
    ∧ name ≠ ascii "x-amz-content-sha256" ∧ name ∉ signed)) (.unsignedAmzHeader name)]

variable (hnormal : normalizeHeaderValue value = normalizeHeaderValue old)

include hnormal

/-- What is signed of the request does not change when the new value folds to the old one. -/
theorem withCopySource_canonicalHeaders (signed : List Bytes) :
    canonicalHeaders (withCopySource request value).headers signed
      = canonicalHeaders request.headers signed := by
  have hheader : canonicalHeader (withCopySource request value).headers
      = canonicalHeader request.headers := by
    funext name
    by_cases hname : name.map toAsciiLowercase = ascii "x-amz-copy-source"
    · rcases @withCopySource_getAll_copy _ request value _ hwell hname hold with ⟨hbefore, hafter⟩
      simp [canonicalHeader, joinedValue, hbefore, hafter, hnormal]
    · simp only [canonicalHeader, joinedValue, withCopySource_getAll hname]
  rw [canonicalHeaders, canonicalHeaders, hheader]

theorem withCopySource_buildCanonicalRequest (signed : List Bytes) (payload : Bytes)
    (excludeSignature : Bool) :
    buildCanonicalRequest (withCopySource request value) signed payload excludeSignature
      = buildCanonicalRequest request signed payload excludeSignature := by
  unfold buildCanonicalRequest
  rw [withCopySource_canonicalHeaders hwell hold hnormal]
  rfl

theorem withCopySource_verify (K : Crates) (mode : AuthMode) (secret : Bytes)
    (config : VerificationConfig) :
    verify K mode (withCopySource request value) secret config
      = verify K mode request secret config := by
  cases mode with
  | header =>
    simp only [verify, verifyHeader, parseHeaderAuthorization,
      withCopySource_validateSignedHeaders hwell hold,
      withCopySource_buildCanonicalRequest hwell hold hnormal]
    rw [withCopySource_oneHeader (by decide), withCopySource_oneHeader (by decide),
      withCopySource_oneHeader (by decide), withCopySource_oneHeader (by decide)]
  | presigned =>
    simp only [verify, verifyPresigned, withCopySource_validateSignedHeaders hwell hold,
      withCopySource_buildCanonicalRequest hwell hold hnormal]
    rfl

theorem withCopySource_canonicalOf (mode : AuthMode) :
    canonicalOf (withCopySource request value) mode = canonicalOf request mode := by
  simp only [canonicalOf, withCopySource_signatureParts]
  apply bind_congr
  intro parts
  exact withCopySource_buildCanonicalRequest hwell hold hnormal _ _ _

theorem withCopySource_sameSignature
    (hverify : verify K mode request secret config = .ok result) :
    SameSignature K secret mode request (withCopySource request value) := by
  have hverify' : verify K mode (withCopySource request value) secret config = .ok result := by
    rw [withCopySource_verify hwell hold hnormal, hverify]
  rcases verified_of_verify hverify with ⟨parts, canonical, hverified⟩
  exact ⟨⟨config, result, hverify⟩, ⟨config, result, hverify'⟩, parts, parts, hverified.found,
    (withCopySource_signatureParts mode).trans hverified.found, rfl, rfl, rfl, rfl, rfl⟩

theorem withCopySource_collisionFree (K : Crates) (mode : AuthMode) :
    CollisionFree K mode request (withCopySource request value) := by
  have hcanonical := withCopySource_canonicalOf hwell hold hnormal mode
  have htext : textToSign K (withCopySource request value) mode = textToSign K request mode := by
    simp only [textToSign, withCopySource_signatureParts, hcanonical]
  constructor
  · rw [hcanonical]
    exact injOn_result _ _
  · intro key
    rw [htext]
    exact injOn_result _ _

end WithCopySource

/-- A request with a copy source that is looked for is a copy, whatever its headers are. -/
theorem classify_copy {request : RequestHead} {bucket key : Bytes}
    (harm : CopyArm request.method request.target.query)
    (hpath : parsePathStyle request.target.rawPath = .ok ⟨some bucket, some key⟩)
    (hkey : key ≠ []) (hpresent : (request.headers.get (ascii "x-amz-copy-source")).isSome = true)
    {operation : Operation} : classify request = .ok operation ↔ (∃ uploadId versionId partNumber,
        optionalOne request.target.query "uploadId" = .ok uploadId
          ∧ optionalI64 request.target.query "versionId" = .ok versionId
          ∧ optionalI32 request.target.query "partNumber" = .ok partNumber)
      ∧ ∃ source, parseCopySource request.headers = .ok source
        ∧ .copyObject bucket key source = operation := by
  have hfilter : (some key).filter nonempty = some key := by simp [nonempty, hkey]
  simp only [classify, hpath, asInvalidRequest, Except.mapError, ok_bind, hfilter]
  rw [classifyObject_copyArm harm, classifyPut, if_pos hpresent]
  simp only [bind_eq_ok, pure_eq_ok]

theorem parseCopySource_eq_ok {source : CopySource} (h : parseCopySource headers = .ok source) :
    ∃ raw, headers.getAll (ascii "x-amz-copy-source") = [raw] ∧ copySourceOf raw = .ok source := by
  unfold parseCopySource at h
  split at h
  · rename_i raw hraw
    exact ⟨raw, hraw, h⟩
  · simp at h

theorem trimmed_doubled {left right : Bytes} (h : Trimmed (left ++ w :: right)) :
    Trimmed (left ++ w :: w :: right) := by
  have hhead : (left ++ w :: w :: right).head? = (left ++ w :: right).head? := by
    cases left <;> rfl
  have hlast : (left ++ w :: w :: right).getLast? = (left ++ w :: right).getLast? := by
    simp [List.getLast?_append, List.getLast?_cons]
  rw [Trimmed, hhead, hlast]
  exact h

/-- **A blank in a copy source makes the signature ambiguous.**  The same signature is good for
    a request that copies another object. -/
theorem blank_ambiguous {request : RequestHead} (haccepted : request.Accepted)
    (hverify : verify K mode request secret config = .ok result) {operation : Operation}
    (hoperation : classify request = .ok operation) (hreads : ReadsCopySource request)
    {value : Bytes} (hvalue : value ∈ request.headers.getAll (ascii "x-amz-copy-source"))
    (hw : isOws w = true) (hmem : w ∈ value) :
    ∃ request' operation', request'.Accepted ∧ SameSignature K secret mode request request'
      ∧ CollisionFree K mode request request' ∧ classify request' = .ok operation'
      ∧ operation' ≠ operation := by
  have hwell := haccepted.wellFormed
  rcases hreads with ⟨harm, bucket, key, hpath, hkey⟩
  have hpresent : (request.headers.get (ascii "x-amz-copy-source")).isSome = true := by
    rw [HeaderMap.get_eq_head]
    rcases List.exists_cons_of_ne_nil (List.ne_nil_of_mem hvalue) with ⟨_, _, hcons⟩
    rw [hcons]
    rfl
  rcases (classify_copy harm hpath hkey hpresent).mp hoperation with
    ⟨hquery, source, hsource, rfl⟩
  rcases parseCopySource_eq_ok hsource with ⟨raw, hraw, hcopy⟩
  rw [hraw, List.mem_singleton] at hvalue
  subst hvalue
  rcases copySourceOf_doubled hcopy hw hmem with ⟨left, right, source', rfl, hcopy', hdiffer⟩
  have hnormal := @normalizeHeaderValue_doubled w left right hw
  have hfieldValid : validFieldValue (left ++ w :: right) = true := by
    have hin : (left ++ w :: right) ∈ request.headers.getAll (ascii "x-amz-copy-source") := by
      rw [hraw]
      exact List.mem_singleton_self _
    rcases List.mem_map.mp hin with ⟨field, hfield, hfieldValue⟩
    rw [← hfieldValue]
    exact (hwell.fields field (List.mem_filter.mp hfield).1).valid
  have hvalid : validFieldValue (left ++ w :: w :: right) = true := by
    rw [validFieldValue, List.all_eq_true] at hfieldValid ⊢
    exact fun b hb => hfieldValid b (mem_doubled.mp hb)
  have htrimmed : Trimmed (left ++ w :: w :: right) :=
    trimmed_doubled (mem_getAll_trimmed hwell (by rw [hraw]; exact List.mem_singleton_self _))
  let request' := withCopySource request (left ++ w :: w :: right)
  rcases @withCopySource_getAll_copy _ request (left ++ w :: w :: right) _ hwell
    (show (ascii "x-amz-copy-source").map toAsciiLowercase = ascii "x-amz-copy-source" from rfl)
    hraw with ⟨_, hraw'⟩
  refine ⟨request', .copyObject bucket key source',
    RequestHead.accepted_iff.mpr (withCopySource_wellFormed hwell htrimmed hvalid),
    withCopySource_sameSignature hwell hraw hnormal hverify,
    withCopySource_collisionFree hwell hraw hnormal K mode, ?_, ?_⟩
  · have hpresent' : (request'.headers.get (ascii "x-amz-copy-source")).isSome = true := by
      rw [HeaderMap.get_eq_head, hraw']
      rfl
    apply (@classify_copy request' bucket key harm hpath hkey hpresent' _).mpr
    refine ⟨hquery, source', ?_, rfl⟩
    rw [parseCopySource, hraw']
    exact hcopy'
  · intro hequal
    injection hequal with _ _ hequal
    exact hdiffer hequal

/-- **When a signature authorizes one operation.**  Whatever other request verifies with the
    same secret, scope, date and signature, it is routed to the same operation: exactly when
    the copy source, if the request is routed by one, has no space or tab in it. -/
theorem signature_authorizes_one_operation_iff {K : Crates} {secret : Bytes} {mode : AuthMode}
    {request : RequestHead} (haccepted : request.Accepted) {config : VerificationConfig}
    {result : VerifiedSignature} (hverify : verify K mode request secret config = .ok result)
    {operation : Operation} (hoperation : classify request = .ok operation) :
    (∀ request', request'.Accepted → SameSignature K secret mode request request' →
        CollisionFree K mode request request' →
        ∀ operation', classify request' = .ok operation' → operation' = operation)
      ↔ PlainCopySource request := by
  constructor
  · intro hunique hreads value hvalue b hb
    by_contra hblank
    rw [Bool.not_eq_false] at hblank
    rcases blank_ambiguous haccepted hverify hoperation hreads hvalue hblank hb with
      ⟨request', operation', haccepted', hsame, hfree, hoperation', hdiffer⟩
    exact hdiffer (hunique request' haccepted' hsame hfree operation' hoperation')
  · intro hplain request' haccepted' hsame hfree operation' hoperation'
    exact (operation_agree haccepted haccepted' hsame hfree hplain operation operation' hoperation
      hoperation').symm

/-! ## 7. A copy that was signed

One copy request, with the digests that SHA-256 and HMAC have on its texts. -/

/-- The canonical request of a copy. -/
def signedCopy (source : String) : Bytes :=
  ascii "PUT\n/dst/to\n\nhost:h\n" ++ ascii "x-amz-copy-source:" ++ ascii source ++
    ascii "\nx-amz-date:20260101T000000Z\n\n" ++ ascii "host;x-amz-copy-source;x-amz-date\n" ++
    ascii "UNSIGNED-PAYLOAD"

/-- The string to sign for a canonical request with this hash. -/
def signedText (hash : Digest32) : Bytes :=
  ascii "AWS4-HMAC-SHA256\n20260101T000000Z\n" ++ ascii "20260101/r/s3/aws4_request\n" ++
    hexLower hash.1

def dateKey : Digest32 :=
  digestOf "e81e6845853d816ca4aebc23524a5d19b9b7781857ba20e5117b00aa2cce2618"

def regionKey : Digest32 :=
  digestOf "60448295793e36cf48d718f297c9b0ad4c0f7aa94af6fb324adffa3e89ba2b26"

def serviceKey : Digest32 :=
  digestOf "75be21200d185e0faccf25afca8c67d0d9a8a6174b7c4fe087ab7e786326f79f"

def signingKey : Digest32 :=
  digestOf "467607ffe46a4d8bf8a2d164609bfb296ba782553779c36096edee1bb372b41c"

def blankHash : Digest32 :=
  digestOf "1a71477fba351b4c47ec2c8ec5a462664b86f2827d6737a6ba0d7856547dc0a1"

def blankSignature : Digest32 :=
  digestOf "b39402e194ae224689bafa9e8e553a42d2c7be32dfca4fa2bc1405b681243f23"

def plainHash : Digest32 :=
  digestOf "95caf68cd111aeb2a2945167f9bef9e8a92dde854284039c432fdb95f1cd0ec6"

def plainSignature : Digest32 :=
  digestOf "4977a4802c0301f04d90e0bfb9c2ad93b092fccded03324616a60d2c558a0ffe"

/-- The copy sources that are signed, with the hash of the canonical request and the
    signature. -/
def signatures : List (String × Digest32 × Digest32) :=
  [("/src/a b", blankHash, blankSignature), ("/src/a%20b", plainHash, plainSignature)]

/-- The crates, right on the texts of this request. -/
def Crates.recorded : Crates :=
  .recording (signatures.map fun entry => (signedCopy entry.1, entry.2.1))
    ([((ascii "AWS4secret", ascii "20260101"), dateKey), ((dateKey.1, ascii "r"), regionKey),
      ((regionKey.1, ascii "s3"), serviceKey), ((serviceKey.1, ascii "aws4_request"), signingKey)]
    ++ signatures.map fun entry => ((signingKey.1, signedText entry.2.1), entry.2.2))

def copyAuthorization (signature : Digest32) : Bytes :=
  ascii "AWS4-HMAC-SHA256 Credential=AK/" ++ ascii "20260101/r/s3/aws4_request, " ++
    ascii "SignedHeaders=host;" ++ ascii "x-amz-copy-source;x-amz-date, " ++
    ascii "Signature=" ++ hexLower signature.1

def copyText (source : String) (signature : Digest32) : Bytes :=
  ascii "PUT /dst/to HTTP/1.1\r\nHost: h\r\n" ++ ascii "x-amz-copy-source: " ++ ascii source ++
    ascii "\r\nx-amz-date: 20260101T000000Z\r\n" ++
    ascii "x-amz-content-sha256: UNSIGNED-PAYLOAD\r\n" ++
    ascii "Authorization: " ++ copyAuthorization signature ++
    ascii "\r\nContent-Length: 0\r\n\r\n"

def copyRequest (source : String) (signature : Digest32) : RequestHead where
  method := ascii "PUT"
  target := ⟨ascii "/dst/to", none, ⟨[]⟩⟩
  headers := ⟨[⟨ascii "host", ascii "h"⟩, ⟨ascii "x-amz-copy-source", ascii source⟩,
    ⟨ascii "x-amz-date", ascii "20260101T000000Z"⟩,
    ⟨ascii "x-amz-content-sha256", ascii "UNSIGNED-PAYLOAD"⟩,
    ⟨ascii "authorization", copyAuthorization signature⟩,
    ⟨ascii "content-length", ascii "0"⟩]⟩
  contentLength := some 0
  transferChunked := false

def copyOf (key : String) : Operation :=
  .copyObject (ascii "dst") (ascii "to") ⟨ascii "src", ascii key, none⟩

def copyTime : VerificationConfig := { now := 1767225600 }

def plainCopy : RequestHead := copyRequest "/src/a%20b" plainSignature

def blankCopy : RequestHead := copyRequest "/src/a b" blankSignature

def doubledCopy : RequestHead := copyRequest "/src/a  b" blankSignature

theorem verify_of_isSome {request : RequestHead}
    (h : (verify K mode request secret config).toOption.isSome = true) :
    ∃ result, verify K mode request secret config = .ok result := by
  cases hverify : verify K mode request secret config with
  | error e =>
    rw [hverify] at h
    cases h
  | ok result => exact ⟨result, rfl⟩

/-- An escaped blank is signed as it is read. -/
theorem signature_authorizes_plain_copy :
    PlainCopySource plainCopy ∧ ∀ request', request'.Accepted →
      SameSignature Crates.recorded (ascii "secret") .header plainCopy request' →
      CollisionFree Crates.recorded .header plainCopy request' →
      ∀ operation', classify request' = .ok operation' → operation' = copyOf "a b" := by
  have haccepted : plainCopy.Accepted := by
    refine ⟨{}, [copyText "/src/a%20b" plainSignature], ?_⟩
    decide +kernel
  have hverify : ∃ result,
      verify Crates.recorded .header plainCopy (ascii "secret") copyTime = .ok result :=
    verify_of_isSome (by decide +kernel)
  rcases hverify with ⟨result, hverify⟩
  have hoperation : classify plainCopy = .ok (copyOf "a b") := by decide +kernel
  have hplain : PlainCopySource plainCopy := by
    intro _
    decide +kernel
  exact ⟨hplain,
    (signature_authorizes_one_operation_iff haccepted hverify hoperation).mpr hplain⟩

/-- The signature of a copy from `src/a b` is also good for a copy from another object, the one
    with two blanks in its name. -/
theorem signature_authorizes_two_copies : blankCopy.Accepted ∧ doubledCopy.Accepted
      ∧ SameSignature Crates.recorded (ascii "secret") .header blankCopy doubledCopy
      ∧ CollisionFree Crates.recorded .header blankCopy doubledCopy
      ∧ classify blankCopy = .ok (copyOf "a b") ∧ classify doubledCopy = .ok (copyOf "a  b")
      ∧ copyOf "a b" ≠ copyOf "a  b" := by
  have haccepted : blankCopy.Accepted := by
    refine ⟨{}, [copyText "/src/a b" blankSignature], ?_⟩
    decide +kernel
  have hverify : ∃ result,
      verify Crates.recorded .header blankCopy (ascii "secret") copyTime = .ok result :=
    verify_of_isSome (by decide +kernel)
  rcases hverify with ⟨result, hverify⟩
  have hwell := haccepted.wellFormed
  have hraw : blankCopy.headers.getAll (ascii "x-amz-copy-source") = [ascii "/src/a b"] := by
    decide +kernel
  have hnormal : normalizeHeaderValue (ascii "/src/a  b")
      = normalizeHeaderValue (ascii "/src/a b") := by
    decide +kernel
  -- The second request is the first one with another value of the header.
  have hdoubled : doubledCopy = withCopySource blankCopy (ascii "/src/a  b") := by rfl
  have htrimmed : Trimmed (ascii "/src/a  b") := by
    unfold Trimmed
    decide +kernel
  have haccepted' : doubledCopy.Accepted := by
    rw [hdoubled]
    exact RequestHead.accepted_iff.mpr (withCopySource_wellFormed hwell htrimmed (by decide +kernel))
  refine ⟨haccepted, haccepted', ?_, ?_, ?_, ?_, ?_⟩
  · rw [hdoubled]
    exact withCopySource_sameSignature hwell hraw hnormal hverify
  · rw [hdoubled]
    exact withCopySource_collisionFree hwell hraw hnormal _ _
  · decide +kernel
  · decide +kernel
  · decide +kernel

end Pgs3.S3
