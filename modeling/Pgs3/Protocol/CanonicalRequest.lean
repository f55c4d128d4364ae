import Pgs3.Protocol.HttpRender
import Pgs3.Protocol.SigV4

/-!
# The canonical request determines what was signed

`build_canonical_request` re-encodes, sorts and joins the parts of a request into one byte
string, while routing decodes the raw request on its own.  Here the byte string is taken
apart again: none of its fields contains the separator that ends it, so equal canonical
requests have equal fields, and each field fixes the decoded part of the request it was made
from.
-/

namespace Pgs3.Protocol

open Pgs3 Foundation

/-! ## 1. Taking joined text apart -/

theorem append_cons_inj {delimiter : UInt8} {a a' b b' : Bytes} (ha : delimiter ∉ a)
    (ha' : delimiter ∉ a') (h : a ++ delimiter :: b = a' ++ delimiter :: b') : a = a' ∧ b = b' := by
  have hsplit := congrArg (splitOnce delimiter) h
  rw [splitOnce_append ha, splitOnce_append ha'] at hsplit
  exact Prod.mk.inj (Option.some.inj hsplit)

theorem intercalate_inj {delimiter : UInt8} {parts parts' : List Bytes}
    (hparts : ∀ p ∈ parts, p ≠ [] ∧ delimiter ∉ p) (hparts' : ∀ p ∈ parts', p ≠ [] ∧ delimiter ∉ p)
    (h : [delimiter].intercalate parts = [delimiter].intercalate parts') : parts = parts' := by
  have hsplit : ∀ {l : List Bytes}, (∀ p ∈ l, p ≠ [] ∧ delimiter ∉ p) → l ≠ [] →
      ([delimiter].intercalate l).splitOn delimiter = l := fun hl hne =>
    List.splitOn_intercalate delimiter (fun p hp => (hl p hp).2) hne
  -- Only the empty list is joined to the empty text, as no part is empty.
  have hempty : ∀ {l : List Bytes}, (∀ p ∈ l, p ≠ [] ∧ delimiter ∉ p) →
      [delimiter].intercalate l = [] → l = [] := by
    intro l hl heq
    by_contra hne
    have hsingle := hsplit hl hne
    rw [heq, List.splitOn_nil] at hsingle
    rw [← hsingle] at hl
    exact (hl [] (by simp)).1 rfl
  by_cases hne : parts = []
  · rw [hne, List.intercalate_nil] at h
    rw [hne, hempty hparts' h.symm]
  · by_cases hne' : parts' = []
    · rw [hne', List.intercalate_nil] at h
      exact absurd (hempty hparts h) hne
    · rw [← hsplit hparts hne, h, hsplit hparts' hne']

variable {b : UInt8}

theorem not_mem_intercalate {between : Bytes} {parts : List Bytes} (hbetween : b ∉ between)
    (h : ∀ p ∈ parts, b ∉ p) : b ∉ between.intercalate parts := by
  induction parts with
  | nil => simp
  | cons first parts ih =>
    have hfirst := h first List.mem_cons_self
    cases parts with
    | nil => simpa using hfirst
    | cons second parts =>
      have htail := ih fun p hp => h p (List.mem_cons_of_mem _ hp)
      rw [List.intercalate_cons_cons]
      simp only [List.mem_append, not_or]
      exact ⟨⟨hfirst, hbetween⟩, htail⟩

def headerBlock (lines : List (Bytes × Bytes)) : Bytes :=
  (lines.map fun line => line.1 ++ 58 :: (line.2 ++ [10])).flatten

/-- Names and values that can be told apart again. -/
def Separable (lines : List (Bytes × Bytes)) : Prop :=
  ∀ line ∈ lines, line.1 ≠ [] ∧ 10 ∉ line.1 ∧ 58 ∉ line.1 ∧ 10 ∉ line.2

/-- The block ends at the first empty line. -/
theorem headerBlock_inj {lines lines' : List (Bytes × Bytes)} {rest rest' : Bytes}
    (hlines : Separable lines) (hlines' : Separable lines')
    (h : headerBlock lines ++ 10 :: rest = headerBlock lines' ++ 10 :: rest') :
    lines = lines' ∧ rest = rest' := by
  have hstart : ∀ {name value tail : Bytes}, name ≠ [] → 10 ∉ name →
      ¬ (10 :: tail = name ++ value) := by
    intro name value tail hne hfree heq
    rcases List.exists_cons_of_ne_nil hne with ⟨b, name, rfl⟩
    exact hfree (by simp [(List.cons.inj heq).1])
  induction lines generalizing lines' with
  | nil =>
    cases lines' with
    | nil => exact ⟨rfl, (List.cons.inj h).2⟩
    | cons line' lines' =>
      have hline' := hlines' line' List.mem_cons_self
      simp only [headerBlock, List.map_cons, List.flatten_cons, List.append_assoc] at h
      exact absurd h (hstart hline'.1 hline'.2.1)
  | cons line lines ih =>
    have hline := hlines line List.mem_cons_self
    cases lines' with
    | nil =>
      simp only [headerBlock, List.map_cons, List.flatten_cons, List.append_assoc] at h
      exact absurd h.symm (hstart hline.1 hline.2.1)
    | cons line' lines' =>
      have hline' := hlines' line' List.mem_cons_self
      simp only [headerBlock, List.map_cons, List.flatten_cons, List.append_assoc,
        List.cons_append] at h
      rcases append_cons_inj hline.2.2.1 hline'.2.2.1 h with ⟨hname, h⟩
      rcases append_cons_inj hline.2.2.2 hline'.2.2.2 h with ⟨hvalue, h⟩
      rcases ih (fun l hl => hlines l (List.mem_cons_of_mem _ hl))
        (fun l hl => hlines' l (List.mem_cons_of_mem _ hl)) h with ⟨htail, hrest⟩
      exact ⟨by rw [Prod.ext hname hvalue, htail], hrest⟩

/-! ## 2. The path -/

theorem canonicalPlain_bytes (b : UInt8) : (canonicalPlain b ≠ []
      && (canonicalPlain b).all fun c => isUnreserved c || c = 37 || (c = 47 && b = 47)) = true := by
  revert b
  exact forall_byte (by decide +kernel)

theorem canonicalEscape_digits (b : UInt8) :
    (!(hexNibble b).isSome || hexNibble (toAsciiUppercase b) = hexNibble b
      && isUnreserved (toAsciiUppercase b)) = true := by
  revert b
  exact forall_byte (by decide +kernel)

theorem toAsciiUppercase_digit (h : (hexNibble b).isSome = true) :
    hexNibble (toAsciiUppercase b) = hexNibble b ∧ isUnreserved (toAsciiUppercase b) = true := by
  have hb := canonicalEscape_digits b
  rw [h] at hb
  simpa using hb

theorem percentDecode_canonicalPlain (h : b ≠ 37) (rest : Bytes) :
    percentDecode (canonicalPlain b ++ rest) = (percentDecode rest).map (b :: ·) := by
  unfold canonicalPlain
  split
  · exact percentDecode_cons h rest
  · exact percentDecode_percentEncoded b rest

variable {raw canonical : Bytes}

/-- **Canonicalization keeps what a path decodes to.** -/
theorem percentDecode_canonicalScan (h : canonicalScan raw = some canonical) :
    percentDecode canonical = percentDecode raw := by
  unfold canonicalScan at h
  fun_induction scanEscapes canonicalPlain canonicalEscape raw generalizing canonical with
  | case1 =>
    cases h
    rfl
  | case2 high low rest hdigits ih =>
    rcases (Bool.and_eq_true _ _).mp hdigits with ⟨hhigh, hlow⟩
    rcases Option.map_eq_some_iff.mp h with ⟨tail, htail, rfl⟩
    have hH := (toAsciiUppercase_digit hhigh).1
    have hL := (toAsciiUppercase_digit hlow).1
    simp only [canonicalEscape, List.cons_append, List.nil_append, percentDecode]
    rw [scanEscapes_escape _ _ (by rw [hH]; exact hhigh) (by rw [hL]; exact hlow),
      scanEscapes_escape _ _ hhigh hlow, ← percentDecode, ← percentDecode, ih htail]
    simp only [escapedByte, hH, hL]
  | case3 => cases h
  | case4 => cases h
  | case5 b rest hb ih =>
    rcases Option.map_eq_some_iff.mp h with ⟨tail, htail, rfl⟩
    rw [percentDecode_canonicalPlain hb, percentDecode_cons hb, ih htail]

/-- The canonical path has no separator of the canonical request, and no new slash. -/
theorem mem_canonicalScan (h : canonicalScan raw = some canonical) {c : UInt8}
    (hc : c ∈ canonical) : isUnreserved c = true ∨ c = 37 ∨ c = 47 ∧ 47 ∈ raw := by
  unfold canonicalScan at h
  fun_induction scanEscapes canonicalPlain canonicalEscape raw generalizing canonical with
  | case1 =>
    cases h
    cases hc
  | case2 high low rest hdigits ih =>
    rcases (Bool.and_eq_true _ _).mp hdigits with ⟨hhigh, hlow⟩
    rcases Option.map_eq_some_iff.mp h with ⟨tail, htail, rfl⟩
    rcases List.mem_append.mp hc with hc | hc
    · simp only [canonicalEscape, List.mem_cons, List.not_mem_nil, or_false] at hc
      rcases hc with rfl | rfl | rfl
      · exact .inr (.inl rfl)
      · exact .inl (toAsciiUppercase_digit hhigh).2
      · exact .inl (toAsciiUppercase_digit hlow).2
    · rcases ih htail hc with h | h | ⟨h, hmem⟩
      · exact .inl h
      · exact .inr (.inl h)
      · exact .inr (.inr ⟨h, by simp [hmem]⟩)
  | case3 => cases h
  | case4 => cases h
  | case5 b rest hb ih =>
    rcases Option.map_eq_some_iff.mp h with ⟨tail, htail, rfl⟩
    rcases List.mem_append.mp hc with hc | hc
    · have hbytes := canonicalPlain_bytes b
      simp only [Bool.and_eq_true, List.all_eq_true, Bool.or_eq_true, decide_eq_true_eq] at hbytes
      rcases hbytes.2 c hc with (hplain | hpercent) | ⟨hslash, rfl⟩
      · exact .inl hplain
      · exact .inr (.inl hpercent)
      · exact .inr (.inr ⟨hslash, by simp⟩)
    · rcases ih htail hc with h | h | ⟨h, hmem⟩
      · exact .inl h
      · exact .inr (.inl h)
      · exact .inr (.inr ⟨h, by simp [hmem]⟩)

theorem not_mem_canonicalScan (h : canonicalScan raw = some canonical) {c : UInt8}
    (hplain : isUnreserved c = false) (hne : c ≠ 37) (hslash : c = 47 → 47 ∉ raw) :
    c ∉ canonical := by
  intro hc
  rcases mem_canonicalScan h hc with h | h | ⟨h, hmem⟩
  · rw [hplain] at h
    cases h
  · exact hne h
  · exact hslash h hmem

theorem canonicalScan_slash (left right : Bytes) : canonicalScan (left ++ 47 :: right)
      = (canonicalScan left).bind fun l => (canonicalScan right).map fun r => l ++ 47 :: r := by
  rw [canonicalScan, scanEscapes_append_cons _ _ (by decide) (by decide)]
  simp [canonicalPlain, canonicalScan]

theorem canonicalScan_eq_nil (h : canonicalScan raw = some []) : raw = [] := by
  unfold canonicalScan at h
  rw [scanEscapes.eq_def] at h
  split at h
  · rfl
  · exfalso
    split at h
    · split at h
      · split at h
        · rcases Option.map_eq_some_iff.mp h with ⟨_, _, heq⟩
          simp [canonicalEscape] at heq
        · cases h
      · cases h
    · rename_i b rest hb
      rcases Option.map_eq_some_iff.mp h with ⟨_, _, heq⟩
      have hbytes := canonicalPlain_bytes b
      simp only [Bool.and_eq_true, decide_eq_true_eq] at hbytes
      exact hbytes.1 (List.append_eq_nil_iff.mp heq).1

theorem decodeBucket_congr {raw' : Bytes} (h : percentDecode raw = percentDecode raw') :
    decodeBucket raw = decodeBucket raw' := by
  rw [decodeBucket, decodeBucket, h]

theorem decodeKey_congr {raw' : Bytes} (h : percentDecode raw = percentDecode raw') :
    decodeKey raw = decodeKey raw' := by
  rw [decodeKey, decodeKey, h]

/-- **A path is routed like its canonical form.** -/
theorem parsePathStyle_canonicalUri (h : canonicalUri raw = .ok canonical) (hquery : 63 ∉ raw)
    (hfragment : 35 ∉ raw) : parsePathStyle canonical = parsePathStyle raw := by
  simp only [canonicalUri, bind_eq_ok, ensure_eq_ok, okOr_eq_ok] at h
  rcases h with ⟨_, hslash, hscan⟩
  have hquery' : 63 ∉ canonical :=
    not_mem_canonicalScan hscan (by decide) (by decide) (fun h => absurd h (by decide))
  have hfragment' : 35 ∉ canonical :=
    not_mem_canonicalScan hscan (by decide) (by decide) (fun h => absurd h (by decide))
  rcases List.head?_eq_some_iff.mp hslash with ⟨rest, rfl⟩
  have hfirst : canonicalScan (47 :: rest) = (canonicalScan rest).map (47 :: ·) :=
    canonicalScan_slash [] rest
  rw [hscan] at hfirst
  rcases Option.map_eq_some_iff.mp hfirst.symm with ⟨tail, htail, rfl⟩
  have hroot : (47 :: tail = [47]) = ((47 : UInt8) :: rest = [47]) := by
    have : tail = [] ↔ rest = [] := by
      constructor
      · rintro rfl
        exact canonicalScan_eq_nil htail
      · rintro rfl
        exact (Option.some.inj htail).symm
    simpa using this
  have hleft : ensure ((47 :: tail).head? = some 47 ∧ 63 ∉ 47 :: tail ∧ 35 ∉ 47 :: tail)
      HttpParseError.invalidRequestTarget = .ok () := by
    rw [ensure_eq_ok]
    exact ⟨rfl, hquery', hfragment'⟩
  have hright : ensure ((47 :: rest).head? = some 47 ∧ 63 ∉ 47 :: rest ∧ 35 ∉ 47 :: rest)
      HttpParseError.invalidRequestTarget = .ok () := by
    rw [ensure_eq_ok]
    exact ⟨rfl, hquery, hfragment⟩
  rw [parsePathStyle, parsePathStyle, hleft, hright]
  simp only [hroot, List.drop_succ_cons, List.drop_zero]
  cases hsplit : splitOnce 47 rest with
  | none =>
    have hfree : 47 ∉ tail := not_mem_canonicalScan htail (by decide) (by decide)
      fun _ => splitOnce_eq_none_iff.mp hsplit
    rw [splitOnce_eq_none_iff.mpr hfree]
    simp only [decodeBucket_congr (percentDecode_canonicalScan htail)]
  | some parts =>
    rcases parts with ⟨bucket, key⟩
    rcases splitOnce_eq hsplit with ⟨rfl, hfree⟩
    rw [canonicalScan_slash] at htail
    simp only [Option.bind_eq_some_iff, Option.map_eq_some_iff] at htail
    rcases htail with ⟨bucket', hbucket, key', hkey, rfl⟩
    have hfree' : 47 ∉ bucket' :=
      not_mem_canonicalScan hbucket (by decide) (by decide) fun _ => hfree
    rw [splitOnce_append hfree']
    simp only [decodeBucket_congr (percentDecode_canonicalScan hbucket),
      decodeKey_congr (percentDecode_canonicalScan hkey)]

/-! ## 3. The query -/

def QueryParams.covered (query : QueryParams) (excludeSignature : Bool) : List QueryParam :=
  query.pairs.filter fun pair => ¬ (excludeSignature ∧ pair.name = ascii "X-Amz-Signature")

def encodedPair (pair : Bytes × Bytes) : Bytes × Bytes :=
  (awsEncode pair.1 true, awsEncode pair.2 true)

theorem encodedPair_injective : Function.Injective encodedPair := by
  intro p q h
  rcases Prod.mk.inj h with ⟨hname, hvalue⟩
  exact Prod.ext (awsEncode_injective true hname) (awsEncode_injective true hvalue)

variable {excludeSignature : Bool}

theorem canonicalPair_of_parseComponent {component : Bytes} {pair : QueryParam}
    (h : parseComponent component = .ok pair) :
    canonicalPair excludeSignature component
      = .ok (if excludeSignature ∧ pair.name = ascii "X-Amz-Signature" then none
          else some (encodedPair (pair.name, pair.value))) := by
  simp only [parseComponent, bind_eq_ok, pure_eq_ok, okOr_eq_ok] at h
  rcases h with ⟨name, hname, value, hvalue, rfl⟩
  simp only [canonicalPair, hname, hvalue, okOr, ok_bind, encodedPair]
  split <;> rfl

theorem mapM_canonicalPair {components : List Bytes} {pairs : List QueryParam}
    (h : components.mapM parseComponent = .ok pairs) :
    components.mapM (canonicalPair excludeSignature)
      = .ok (pairs.map fun pair =>
          if excludeSignature ∧ pair.name = ascii "X-Amz-Signature" then none
          else some (encodedPair (pair.name, pair.value))) := by
  induction components generalizing pairs with
  | nil =>
    cases h
    rfl
  | cons component components ih =>
    simp only [List.mapM_cons, bind_eq_ok, pure_eq_ok] at h ⊢
    rcases h with ⟨pair, hpair, rest, hrest, rfl⟩
    exact ⟨_, canonicalPair_of_parseComponent hpair, _, ih hrest, rfl⟩

theorem filterMap_canonicalPair (excludeSignature : Bool) (pairs : List QueryParam) :
    (pairs.map fun pair =>
        if excludeSignature ∧ pair.name = ascii "X-Amz-Signature" then none
        else some (encodedPair (pair.name, pair.value))).filterMap id
      = ((QueryParams.covered ⟨pairs⟩ excludeSignature).map fun pair =>
          encodedPair (pair.name, pair.value)) := by
  induction pairs with
  | nil => rfl
  | cons pair pairs ih =>
    unfold QueryParams.covered at ih ⊢
    rw [List.map_cons, List.filterMap_cons, ih, List.filter_cons]
    split <;> split <;> simp_all

theorem canonicalQuery_parsed {raw : Option Bytes} {query : QueryParams}
    (h : QueryParams.parse (raw.getD []) = .ok query) : canonicalQuery raw excludeSignature
      = .ok (joinPairs ((query.covered excludeSignature).map fun pair =>
          encodedPair (pair.name, pair.value))) := by
  cases raw with
  | none =>
    cases h
    rfl
  | some raw =>
    by_cases hempty : raw = []
    · subst hempty
      cases h
      rfl
    · simp only [QueryParams.parse, Option.getD_some, if_neg hempty, bind_eq_ok, pure_eq_ok] at h
      rcases h with ⟨pairs, hpairs, rfl⟩
      simp only [canonicalQuery, if_neg hempty, bind_eq_ok, pure_eq_ok]
      exact ⟨_, mapM_canonicalPair hpairs, by rw [filterMap_canonicalPair]⟩

theorem not_mem_encodedPair (pair : Bytes × Bytes) (hplain : isUnreserved b = false)
    (hne : b ≠ 37) : b ∉ (encodedPair pair).1 ∧ b ∉ (encodedPair pair).2 :=
  ⟨not_mem_awsEncode hplain hne, not_mem_awsEncode hplain hne⟩

/-- The canonical query has the same pairs, whatever order they came in. -/
theorem joinPairs_inj {pairs pairs' : List (Bytes × Bytes)}
    (h : joinPairs (pairs.map encodedPair) = joinPairs (pairs'.map encodedPair)) :
    (pairs : Multiset (Bytes × Bytes)) = pairs' := by
  -- Every text `name=value` is nonempty and free of `&`.
  have htexts : ∀ l : List (Bytes × Bytes),
      ∀ text ∈ ((l.map encodedPair).insertionSort pairLe).map fun p => p.1 ++ 61 :: p.2,
        text ≠ [] ∧ 38 ∉ text := by
    intro l text htext
    rcases List.mem_map.mp htext with ⟨p, hp, rfl⟩
    rw [(List.perm_insertionSort pairLe _).mem_iff] at hp
    rcases List.mem_map.mp hp with ⟨q, _, rfl⟩
    have hfree := @not_mem_encodedPair 38 q (by decide) (by decide)
    simp [hfree.1, hfree.2]
  -- The first `=` of a text ends its name.
  have hcuts : ∀ l : List (Bytes × Bytes),
      (((l.map encodedPair).insertionSort pairLe).map fun p => p.1 ++ 61 :: p.2).map (splitOnce 61)
        = ((l.map encodedPair).insertionSort pairLe).map some := by
    intro l
    rw [List.map_map]
    apply List.map_congr_left
    intro p hp
    rw [(List.perm_insertionSort pairLe _).mem_iff] at hp
    rcases List.mem_map.mp hp with ⟨q, _, rfl⟩
    exact splitOnce_append (@not_mem_encodedPair 61 q (by decide) (by decide)).1
  have hsorted := intercalate_inj (htexts pairs) (htexts pairs') h
  have hequal : (pairs.map encodedPair).insertionSort pairLe
      = (pairs'.map encodedPair).insertionSort pairLe := by
    have hcut := congrArg (List.map (splitOnce 61)) hsorted
    rw [hcuts, hcuts] at hcut
    exact List.map_injective_iff.mpr (Option.some_injective _) hcut
  have hperm : (pairs.map encodedPair).Perm (pairs'.map encodedPair) :=
    (List.perm_insertionSort pairLe _).symm.trans
      (hequal ▸ List.perm_insertionSort pairLe _)
  apply Multiset.map_injective encodedPair_injective
  rw [Multiset.map_coe, Multiset.map_coe, Multiset.coe_eq_coe]
  exact hperm

theorem not_mem_joinPairs (pairs : List (Bytes × Bytes)) :
    10 ∉ joinPairs (pairs.map encodedPair) := by
  apply not_mem_intercalate (by decide)
  intro text htext
  rcases List.mem_map.mp htext with ⟨p, hp, rfl⟩
  rw [(List.perm_insertionSort pairLe _).mem_iff] at hp
  rcases List.mem_map.mp hp with ⟨q, _, rfl⟩
  have hfree := @not_mem_encodedPair 10 q (by decide) (by decide)
  simp [hfree.1, hfree.2]

/-! ## 4. The headers -/

/-- What `normalize_header_value` appends for the rest of a value, given whether the last byte
    was whitespace. -/
def foldWhitespace : Bool → Bytes → Bytes
  | _, [] => []
  | inWhitespace, b :: rest =>
      if isOws b then
        if inWhitespace then foldWhitespace true rest else 32 :: foldWhitespace true rest
      else b :: foldWhitespace false rest

theorem foldl_normalizeStep (out : Bytes) (inWhitespace : Bool) (value : Bytes) :
    (value.foldl normalizeStep (out, inWhitespace)).1
      = out ++ foldWhitespace inWhitespace value := by
  induction value generalizing out inWhitespace with
  | nil => simp [foldWhitespace]
  | cons b value ih =>
    rw [List.foldl_cons, normalizeStep, foldWhitespace]
    by_cases hb : isOws b = true
    · cases inWhitespace with
      | true => simp [hb, ih]
      | false => simp [hb, ih]
    · simp [hb, ih]

theorem mem_foldWhitespace {inWhitespace : Bool} {value : Bytes}
    (h : b ∈ foldWhitespace inWhitespace value) : b ∈ value ∨ b = 32 := by
  induction value generalizing inWhitespace with
  | nil => cases h
  | cons c value ih =>
    rw [foldWhitespace] at h
    split at h
    · split at h
      · rcases ih h with h | h
        · exact .inl (List.mem_cons_of_mem _ h)
        · exact .inr h
      · rcases List.mem_cons.mp h with rfl | h
        · exact .inr rfl
        · rcases ih h with h | h
          · exact .inl (List.mem_cons_of_mem _ h)
          · exact .inr h
    · rcases List.mem_cons.mp h with rfl | h
      · exact .inl List.mem_cons_self
      · rcases ih h with h | h
        · exact .inl (List.mem_cons_of_mem _ h)
        · exact .inr h

theorem mem_normalizeHeaderValue {value : Bytes} (h : b ∈ normalizeHeaderValue value) :
    b ∈ value ∨ b = 32 := by
  apply @mem_foldWhitespace _ true
  have hfold := foldl_normalizeStep [] true value
  rw [List.nil_append] at hfold
  rw [normalizeHeaderValue] at h
  split at h
  · exact hfold ▸ (List.dropLast_sublist _).mem h
  · exact hfold ▸ h

theorem not_mem_joinedValue {head : RequestHead} (h : head.WellFormed) (name : Bytes) :
    10 ∉ joinedValue head.headers name := by
  apply not_mem_intercalate (by decide)
  intro text htext hmem
  rcases List.mem_map.mp htext with ⟨value, hvalue, rfl⟩
  rcases List.mem_map.mp hvalue with ⟨field, hfield, rfl⟩
  have hvalid := (h.fields field (List.mem_filter.mp hfield).1).valid
  rcases mem_normalizeHeaderValue hmem with hmem | hmem
  · exact absurd (List.all_eq_true.mp hvalid _ hmem) (by decide)
  · exact absurd hmem (by decide)

variable {text : Bytes}

theorem canonicalHeaders_eq {headers : HeaderMap} {signed : List Bytes}
    (h : canonicalHeaders headers signed = .ok text) :
    text = headerBlock (signed.map fun name => (name, joinedValue headers name)) := by
  simp only [canonicalHeaders, bind_eq_ok, pure_eq_ok] at h
  rcases h with ⟨lines, hlines, rfl⟩
  apply congrArg List.flatten
  induction signed generalizing lines with
  | nil =>
    cases hlines
    rfl
  | cons name signed ih =>
    simp only [List.mapM_cons, canonicalHeader, bind_eq_ok, pure_eq_ok, ensure_eq_ok] at hlines
    rcases hlines with ⟨line, ⟨_, _, rfl⟩, rest, hrest, rfl⟩
    rw [ih rest hrest]
    rfl

theorem parseSignedHeaders_free {signed : List Bytes} (h : parseSignedHeaders text = .ok signed) :
    ∀ name ∈ signed, name ≠ [] ∧ 10 ∉ name ∧ 58 ∉ name := by
  simp only [parseSignedHeaders, bind_eq_ok, pure_eq_ok, ensure_eq_ok] at h
  rcases h with ⟨_, ⟨_, hnames, _⟩, rfl⟩
  intro name hname
  rcases hnames name hname with ⟨hne, htoken⟩
  rw [List.all_eq_true] at htoken
  exact ⟨hne, fun hmem => absurd (htoken _ hmem) (by decide),
    fun hmem => absurd (htoken _ hmem) (by decide)⟩

/-! ## 5. The whole request -/

/-- The multiset of percent-decoded query pairs, without the signature of a presigned URL. -/
def RequestHead.coveredPairs (head : RequestHead) (presigned : Bool) : Multiset (Bytes × Bytes) :=
  (head.target.query.covered presigned).map fun pair => (pair.name, pair.value)

def RequestHead.signedLines (head : RequestHead) (signed : List Bytes) : List (Bytes × Bytes) :=
  signed.map fun name => (name, joinedValue head.headers name)

theorem RequestHead.signedLines_names (head : RequestHead) (signed : List Bytes) :
    (head.signedLines signed).map Prod.fst = signed := by
  rw [RequestHead.signedLines, List.map_map]
  exact List.map_id signed

theorem RequestHead.signedLines_separable {head : RequestHead} (h : head.WellFormed)
    {signed : List Bytes} (hsigned : parseSignedHeaders text = .ok signed) :
    Separable (head.signedLines signed) := by
  intro line hline
  rcases List.mem_map.mp hline with ⟨name, hname, rfl⟩
  rcases parseSignedHeaders_free hsigned name hname with ⟨hne, hfeed, hcolon⟩
  exact ⟨hne, hfeed, hcolon, not_mem_joinedValue h name⟩

theorem buildCanonicalRequest_eq {head : RequestHead} (hwell : head.WellFormed)
    {signed : List Bytes} {payload : Bytes} {presigned : Bool}
    (h : buildCanonicalRequest head signed payload presigned = .ok canonical) :
    ∃ uri, canonicalUri head.target.rawPath = .ok uri
      ∧ canonical = head.method ++ 10 :: (uri ++ 10 ::
        (joinPairs (((head.target.query.covered presigned).map
            fun pair => (pair.name, pair.value)).map encodedPair) ++ 10 ::
          (headerBlock (head.signedLines signed) ++ 10 ::
            ([59].intercalate signed ++ 10 :: payload)))) := by
  simp only [buildCanonicalRequest, bind_eq_ok, pure_eq_ok,
    canonicalQuery_parsed hwell.target.parsed, Except.ok.injEq] at h
  rcases h with ⟨uri, huri, _, rfl, headers, hheaders, rfl⟩
  rw [canonicalHeaders_eq hheaders, List.map_map]
  exact ⟨uri, huri, rfl⟩

theorem not_mem_canonicalUri {uri : Bytes} (h : canonicalUri raw = .ok uri) : 10 ∉ uri := by
  simp only [canonicalUri, bind_eq_ok, okOr_eq_ok] at h
  rcases h with ⟨_, _, hscan⟩
  exact not_mem_canonicalScan hscan (by decide) (by decide) fun h => absurd h (by decide)

/-- What two requests with one canonical request share before anything is decoded. -/
structure SameCanonical (head head' : RequestHead) (signed signed' : List Bytes)
    (payload payload' : Bytes) (presigned : Bool) : Prop where
  method : head.method = head'.method
  uri : ∃ uri, canonicalUri head.target.rawPath = .ok uri
    ∧ canonicalUri head'.target.rawPath = .ok uri
  query : joinPairs (((head.target.query.covered presigned).map
        fun pair => (pair.name, pair.value)).map encodedPair)
      = joinPairs (((head'.target.query.covered presigned).map
        fun pair => (pair.name, pair.value)).map encodedPair)
  lines : head.signedLines signed = head'.signedLines signed'
  payload : payload = payload'

namespace SameCanonical

variable {head head' : RequestHead} {signed signed' : List Bytes} {payload payload' : Bytes}
  {presigned : Bool}

/-- The fields come off the canonical request one line at a time. -/
theorem of_eq {text' : Bytes} (hwell : head.WellFormed) (hwell' : head'.WellFormed)
    (hsigned : parseSignedHeaders text = .ok signed)
    (hsigned' : parseSignedHeaders text' = .ok signed')
    (h : buildCanonicalRequest head signed payload presigned = .ok canonical)
    (h' : buildCanonicalRequest head' signed' payload' presigned = .ok canonical) :
    SameCanonical head head' signed signed' payload payload' presigned := by
  rcases buildCanonicalRequest_eq hwell h with ⟨uri, huri, hcanonical⟩
  rcases buildCanonicalRequest_eq hwell' h' with ⟨uri', huri', hcanonical'⟩
  rw [hcanonical] at hcanonical'
  rcases append_cons_inj (not_mem_token hwell.method_token).1
    (not_mem_token hwell'.method_token).1 hcanonical' with ⟨hmethod, hafterMethod⟩
  rcases append_cons_inj (not_mem_canonicalUri huri) (not_mem_canonicalUri huri') hafterMethod
    with ⟨rfl, hafterUri⟩
  rcases append_cons_inj (not_mem_joinPairs _) (not_mem_joinPairs _) hafterUri
    with ⟨hquery, hafterQuery⟩
  rcases headerBlock_inj (RequestHead.signedLines_separable hwell hsigned)
    (RequestHead.signedLines_separable hwell' hsigned') hafterQuery with ⟨hlines, hrest⟩
  have hnames : signed = signed' := by
    rw [← RequestHead.signedLines_names head signed, hlines, RequestHead.signedLines_names]
  subst hnames
  exact ⟨hmethod, ⟨uri, huri, huri'⟩, hquery, hlines,
    (List.cons.inj (List.append_cancel_left hrest)).2⟩

variable (h : SameCanonical head head' signed signed' payload payload' presigned)

include h

theorem signed_eq : signed = signed' := by
  rw [← RequestHead.signedLines_names head signed, h.lines, RequestHead.signedLines_names]

theorem path_eq (hwell : head.WellFormed) (hwell' : head'.WellFormed) :
    parsePathStyle head.target.rawPath = parsePathStyle head'.target.rawPath := by
  rcases h.uri with ⟨uri, huri, huri'⟩
  rw [← parsePathStyle_canonicalUri huri hwell.target.no_query hwell.target.no_fragment,
    parsePathStyle_canonicalUri huri' hwell'.target.no_query hwell'.target.no_fragment]

theorem pairs_eq : head.coveredPairs presigned = head'.coveredPairs presigned := joinPairs_inj h.query

theorem value_eq {name : Bytes} (hname : name ∈ signed) :
    joinedValue head.headers name = joinedValue head'.headers name := by
  have hlines := h.lines
  rw [← h.signed_eq] at hlines
  exact (Prod.mk.inj (List.map_inj_left.mp hlines name hname)).2

end SameCanonical

/-- **The canonical request is injective up to the intended equivalence.**  Two accepted
    heads, each with a signed-header list that was accepted, and equal canonical requests in
    the same mode agree on everything that the signature is meant to cover. -/
theorem canonical_request_injective {head head' : RequestHead} {signed signed' : List Bytes}
    {text text' payload payload' canonical : Bytes} {presigned : Bool}
    (haccepted : head.Accepted) (haccepted' : head'.Accepted)
    (hsigned : parseSignedHeaders text = .ok signed)
    (hsigned' : parseSignedHeaders text' = .ok signed')
    (h : buildCanonicalRequest head signed payload presigned = .ok canonical)
    (h' : buildCanonicalRequest head' signed' payload' presigned = .ok canonical) :
    head.method = head'.method ∧ signed = signed'
      ∧ parsePathStyle head.target.rawPath = parsePathStyle head'.target.rawPath
      ∧ head.coveredPairs presigned = head'.coveredPairs presigned
      ∧ (∀ name ∈ signed, joinedValue head.headers name = joinedValue head'.headers name)
      ∧ payload = payload' := by
  have hwell := haccepted.wellFormed
  have hwell' := haccepted'.wellFormed
  have hsame := SameCanonical.of_eq hwell hwell' hsigned hsigned' h h'
  exact ⟨hsame.method, hsame.signed_eq, hsame.path_eq hwell hwell', hsame.pairs_eq,
    fun name hname => hsame.value_eq hname, hsame.payload⟩

/-- A listing of the bucket `b`, with the spelling of the target and of one header left open. -/
def spelledHead (rawPath rawQuery : String) (query : List QueryParam) (date : String) :
    RequestHead where
  method := ascii "GET"
  target := ⟨ascii rawPath, some (ascii rawQuery), ⟨query⟩⟩
  headers := ⟨[⟨ascii "host", ascii "h"⟩, ⟨ascii "x-amz-date", ascii date⟩]⟩
  contentLength := none
  transferChunked := false

def firstSpelling : RequestHead :=
  spelledHead "/b%7e" "max-keys=1&prefix=%61"
    [⟨ascii "max-keys", ascii "1", ascii "max-keys", ascii "1"⟩,
      ⟨ascii "prefix", ascii "%61", ascii "prefix", ascii "a"⟩] "1 2"

def secondSpelling : RequestHead :=
  spelledHead "/b%7E" "prefix=a&max-keys=1"
    [⟨ascii "prefix", ascii "a", ascii "prefix", ascii "a"⟩,
      ⟨ascii "max-keys", ascii "1", ascii "max-keys", ascii "1"⟩] "1  2"

theorem canonical_request_injective_spellings : firstSpelling ≠ secondSpelling
      ∧ parsePathStyle firstSpelling.target.rawPath = parsePathStyle secondSpelling.target.rawPath
      ∧ firstSpelling.coveredPairs false = secondSpelling.coveredPairs false := by
  have hcanonical : ∀ head ∈ [firstSpelling, secondSpelling],
      buildCanonicalRequest head [ascii "host", ascii "x-amz-date"] [] false
        = .ok (ascii ("GET\n/b%7E\nmax-keys=1&prefix=a\nhost:h\nx-amz-date:1 2\n\n" ++
            "host;x-amz-date\n")) := by
    decide +kernel
  have hsigned : parseSignedHeaders (ascii "host;x-amz-date")
      = .ok [ascii "host", ascii "x-amz-date"] := by
    decide +kernel
  have haccepted : firstSpelling.Accepted := by
    refine ⟨{}, [ascii ("GET /b%7e?max-keys=1&prefix=%61 HTTP/1.1\r\n" ++
      "Host: h\r\nX-Amz-Date: 1 2\r\n\r\n")], ?_⟩
    decide +kernel
  have haccepted' : secondSpelling.Accepted := by
    refine ⟨{}, [ascii ("GET /b%7E?prefix=a&max-keys=1 HTTP/1.1\r\n" ++
      "Host: h\r\nX-Amz-Date: 1  2\r\n\r\n")], ?_⟩
    decide +kernel
  rcases canonical_request_injective haccepted haccepted' hsigned hsigned
    (hcanonical _ (by simp)) (hcanonical _ (by simp)) with ⟨_, _, hpath, hpairs, _, _⟩
  exact ⟨by decide +kernel, hpath, hpairs⟩

end Pgs3.Protocol
