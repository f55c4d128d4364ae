import Pgs3.Protocol.CanonicalRequest
import Pgs3.S3.Route

/-!
# Whitespace in a copy source

`parse_copy_source` reads the raw value of its header.  A space or tab that stands in the
path of the value is part of the bucket or key it names, and writing it twice names another
object.
-/

namespace Pgs3.S3

open Pgs3 Foundation Protocol

/-! ## 1. Doubling a blank -/

theorem isOws_plain {w : UInt8} (h : isOws w = true) :
    w ≠ 37 ∧ hexNibble w = none ∧ w ≤ 0x7F ∧ w ≠ 47 ∧ w ≠ 63 ∧ w ≠ 35 ∧ w ≠ 0 := by
  simp only [isOws, Bool.or_eq_true, decide_eq_true_eq] at h
  rcases h with rfl | rfl
  · decide
  · decide

section Doubling

variable {left right : Bytes} {w : UInt8}

theorem percentDecode_doubled (hw : isOws w = true) {decoded : Bytes}
    (h : percentDecode (left ++ w :: right) = some decoded) : ∃ l r, decoded = l ++ w :: r
      ∧ percentDecode (left ++ w :: w :: right) = some (l ++ w :: w :: r) := by
  rcases isOws_plain hw with ⟨hpercent, hhex, _⟩
  rcases percentDecode_split hpercent hhex h with ⟨l, r, hl, hr, rfl⟩
  apply Exists.intro l
  apply Exists.intro r
  rw [percentDecode_append_cons hpercent hhex, percentDecode_cons hpercent, hl, hr]
  exact ⟨rfl, rfl⟩

theorem validUtf8_doubled (hw : isOws w = true) (h : validUtf8 (left ++ w :: right) = true) :
    validUtf8 (left ++ w :: w :: right) = true := by
  have hascii := (isOws_plain hw).2.2.1
  rcases (validUtf8_append_cons hascii).mp h with ⟨hleft, hright⟩
  have hsecond : validUtf8 (w :: right) = true :=
    (@validUtf8_append_cons [] right w hascii).mpr ⟨rfl, hright⟩
  exact (validUtf8_append_cons hascii).mpr ⟨hleft, hsecond⟩

theorem mem_doubled {b : UInt8} : b ∈ left ++ w :: w :: right ↔ b ∈ left ++ w :: right := by
  simp

theorem decodeKey_doubled (hw : isOws w = true) {key : Bytes}
    (h : decodeKey (left ++ w :: right) = .ok key) :
    ∃ key', decodeKey (left ++ w :: w :: right) = .ok key' ∧ key'.length = key.length + 1 := by
  simp only [decodeKey, bind_eq_ok, pure_eq_ok, ensure_eq_ok, okOr_eq_ok] at h ⊢
  rcases h with ⟨decoded, hdecode, _, hnul, _, hutf8, rfl⟩
  rcases percentDecode_doubled hw hdecode with ⟨l, r, rfl, hdouble⟩
  exact ⟨_, ⟨_, hdouble, (), mem_doubled.not.mpr hnul, (), validUtf8_doubled hw hutf8, rfl⟩,
    by simp only [List.length_append, List.length_cons]; omega⟩

theorem decodeBucket_doubled (hw : isOws w = true) {bucket : Bytes}
    (h : decodeBucket (left ++ w :: right) = .ok bucket) :
    ∃ bucket', decodeBucket (left ++ w :: w :: right) = .ok bucket'
      ∧ bucket'.length = bucket.length + 1 := by
  simp only [decodeBucket, bind_eq_ok, pure_eq_ok, ensure_eq_ok, okOr_eq_ok] at h ⊢
  rcases h with ⟨decoded, hdecode, _, ⟨_, hslash, hcontrol⟩, _, hnul, _, hutf8, rfl⟩
  rcases percentDecode_doubled hw hdecode with ⟨l, r, rfl, hdouble⟩
  have hcontrol' : ¬ (l ++ w :: w :: r).any isAsciiControl = true := by
    rw [List.any_eq_true] at hcontrol ⊢
    rintro ⟨b, hb, hcontrolled⟩
    exact hcontrol ⟨b, mem_doubled.mp hb, hcontrolled⟩
  exact ⟨_, ⟨_, hdouble, (), ⟨by simp, mem_doubled.not.mpr hslash, hcontrol'⟩, (),
      mem_doubled.not.mpr hnul, (), validUtf8_doubled hw hutf8, rfl⟩,
    by simp only [List.length_append, List.length_cons]; omega⟩

end Doubling

/-! ## 2. The path of a copy source -/

theorem parsePathStyle_eq_ok {text bucket key : Bytes} :
    parsePathStyle (47 :: text) = .ok ⟨some bucket, some key⟩ ↔
      ∃ bucketRaw keyRaw, text = bucketRaw ++ 47 :: keyRaw ∧ 47 ∉ bucketRaw ∧ 63 ∉ text ∧ 35 ∉ text
        ∧ decodeBucket bucketRaw = .ok bucket ∧ decodeKey keyRaw = .ok key := by
  simp only [parsePathStyle, bind_eq_ok, ensure_eq_ok, List.drop_succ_cons, List.drop_zero]
  constructor
  · rintro ⟨_, ⟨_, hquery, hfragment⟩, h⟩
    split at h
    · simp at h
    split at h
    · rename_i bucketRaw keyRaw hsplit
      simp only [bind_eq_ok, pure_eq_ok, PathStyleTarget.mk.injEq, Option.some.injEq] at h
      rcases h with ⟨_, hbucket, _, hkey, rfl, rfl⟩
      rcases splitOnce_eq hsplit with ⟨rfl, hfree⟩
      simp only [List.mem_cons, not_or] at hquery hfragment
      exact ⟨bucketRaw, keyRaw, rfl, hfree, hquery.2, hfragment.2, hbucket, hkey⟩
    · simp at h
  · rintro ⟨bucketRaw, keyRaw, rfl, hfree, hquery, hfragment, hbucket, hkey⟩
    refine ⟨(), ⟨rfl, by simpa using hquery, by simpa using hfragment⟩, ?_⟩
    rw [if_neg (by simp), splitOnce_append hfree]
    simp [hbucket, hkey]

/-- A blank in the path can be doubled, and another object is named. -/
theorem parsePathStyle_doubled {text bucket key : Bytes} {w : UInt8} (hw : isOws w = true)
    (hmem : w ∈ text) (h : parsePathStyle (47 :: text) = .ok ⟨some bucket, some key⟩) :
    ∃ left right bucket' key', text = left ++ w :: right
      ∧ parsePathStyle (47 :: (left ++ w :: w :: right)) = .ok ⟨some bucket', some key'⟩
      ∧ key.length ≤ key'.length ∧ (bucket', key') ≠ (bucket, key) := by
  rcases isOws_plain hw with ⟨_, _, _, hslash, hquestion, hhash, _⟩
  rcases parsePathStyle_eq_ok.mp h with
    ⟨bucketRaw, keyRaw, rfl, hfree, hquery, hfragment, hbucket, hkey⟩
  have hwhere : w ∈ bucketRaw ∨ w ∈ keyRaw := by
    simpa [hslash] using hmem
  rcases hwhere with hwhere | hwhere
  · rcases List.append_of_mem hwhere with ⟨left, right, rfl⟩
    rcases decodeBucket_doubled hw hbucket with ⟨bucket', hbucket', hlength⟩
    refine ⟨left, right ++ 47 :: keyRaw, bucket', key, by simp, ?_, le_refl _, ?_⟩
    · apply parsePathStyle_eq_ok.mpr
      refine ⟨left ++ w :: w :: right, keyRaw, by simp, mem_doubled.not.mpr hfree, ?_, ?_,
        hbucket', hkey⟩
      · simpa using hquery
      · simpa using hfragment
    · intro heq
      rw [(Prod.mk.inj heq).1] at hlength
      omega
  · rcases List.append_of_mem hwhere with ⟨left, right, rfl⟩
    rcases decodeKey_doubled hw hkey with ⟨key', hkey', hlength⟩
    refine ⟨bucketRaw ++ 47 :: left, right, bucket, key', by simp, ?_, by omega, ?_⟩
    · apply parsePathStyle_eq_ok.mpr
      refine ⟨bucketRaw, left ++ w :: w :: right, by simp, hfree, ?_, ?_, hbucket, hkey'⟩
      · simpa using hquery
      · simpa using hfragment
    · intro heq
      rw [(Prod.mk.inj heq).2] at hlength
      omega

/-! ## 3. The query of a copy source -/

theorem parseSigned_bytes {bits : Nat} {text : Bytes} {n : Int}
    (h : parseSigned bits text = some n) : ∀ b ∈ text, isAsciiDigit b = true ∨ b = 43 ∨ b = 45 := by
  have hdigits : ∀ {digits : Bytes} {m : Nat}, parseDigits digits = some m →
      ∀ b ∈ digits, isAsciiDigit b = true := by
    intro digits m hm
    unfold parseDigits at hm
    split at hm
    · cases hm
    · rename_i hall
      simp only [not_or, not_not] at hall
      exact List.all_eq_true.mp hall.2
  -- A sign stands in front of the digits or not at all.
  have hsigned : ∀ {sign : UInt8} {m : Nat}, text.head? = some sign →
      parseDigits text.tail = some m → ∀ b ∈ text, isAsciiDigit b = true ∨ b = sign := by
    intro sign m hhead hm b hb
    rcases List.head?_eq_some_iff.mp hhead with ⟨rest, rfl⟩
    rcases List.mem_cons.mp hb with rfl | hb
    · exact .inr rfl
    · exact .inl (hdigits hm b hb)
  intro b hb
  unfold parseSigned at h
  split at h
  · rename_i hminus
    simp only [Option.filter_eq_some_iff, Option.map_eq_some_iff] at h
    rcases h with ⟨⟨m, hm, _⟩, _⟩
    rcases hsigned hminus hm b hb with h | h
    · exact .inl h
    · exact .inr (.inr h)
  · simp only [parseUnsigned, Option.map_eq_some_iff, Option.filter_eq_some_iff] at h
    rcases h with ⟨m, ⟨hm, _⟩, _⟩
    split at hm
    · rename_i hplus
      rcases hsigned hplus hm b hb with h | h
      · exact .inl h
      · exact .inr (.inl h)
    · exact .inl (hdigits hm b hb)

theorem copySourceQuery_no_blank {raw : Bytes} {query : QueryParams} {version : Option Int}
    (hparse : QueryParams.parse raw = .ok query)
    (hnames : ∀ pair ∈ query.pairs, pair.name = ascii "versionId")
    (hversion : optionalI64 query "versionId" = .ok version) {w : UInt8}
    (hw : isOws w = true) : w ∉ raw := by
  intro hmem
  rcases isOws_plain hw with ⟨hpercent, hhex, _⟩
  have hne : raw ≠ [] := List.ne_nil_of_mem hmem
  simp only [QueryParams.parse, if_neg hne, bind_eq_ok, pure_eq_ok] at hparse
  rcases hparse with ⟨pairs, hpairs, rfl⟩
  -- The blank is in one of the components, in its name or in its value.
  have hcomponent : ∃ component ∈ raw.splitOn 38, w ∈ component := by
    by_contra hnone
    push Not at hnone
    have hfree := @not_mem_intercalate w [38] (raw.splitOn 38)
      (by rintro hsep; simp only [List.mem_singleton] at hsep; subst hsep; cases hw) hnone
    rw [List.intercalate_splitOn] at hfree
    exact hfree hmem
  rcases hcomponent with ⟨component, hcomponent, hwhere⟩
  rcases mem_of_mapM hpairs hcomponent with ⟨pair, hpair, hparsed⟩
  simp only [parseComponent, bind_eq_ok, pure_eq_ok, okOr_eq_ok] at hparsed
  rcases hparsed with ⟨name, hname, value, hvalue, rfl⟩
  have hside : w ∈ (splitComponent component).1 ∨ w ∈ (splitComponent component).2 := by
    unfold splitComponent
    cases hsplit : splitOnce 61 component with
    | none => exact .inl hwhere
    | some parts =>
      rcases splitOnce_eq hsplit with ⟨rfl, _⟩
      rcases List.mem_append.mp hwhere with h | h
      · exact .inl h
      · rcases List.mem_cons.mp h with rfl | h
        · cases hw
        · exact .inr h
  rcases hside with hside | hside
  · have hdecoded := mem_percentDecode hpercent hhex hname hside
    rw [show name = ascii "versionId" from hnames _ hpair] at hdecoded
    have hplain : ∀ b ∈ ascii "versionId", isOws b = false := by decide +kernel
    rw [hplain w hdecoded] at hw
    cases hw
  · have hdecoded := mem_percentDecode hpercent hhex hvalue hside
    simp only [optionalI64, optionalOne, atMostOnce, bind_eq_ok, pure_eq_ok, ensure_eq_ok]
      at hversion
    rcases hversion with ⟨text, ⟨values, ⟨_, hone, rfl⟩, htext⟩, hversion⟩
    -- The value is the only one of its parameter, and it was read as a number.
    have hall : pairs.filter (fun pair => pair.name = ascii "versionId") = pairs :=
      List.filter_eq_self.mpr fun pair hpair => by simpa using hnames pair hpair
    rw [QueryParams.getAll, hall] at hone htext
    cases pairs with
    | nil => cases hpair
    | cons first rest =>
      have hrest : rest = [] := by
        rw [List.length_map, List.length_cons] at hone
        exact List.eq_nil_of_length_eq_zero (by omega)
      rw [hrest, List.mem_singleton] at hpair
      subst hpair
      simp only [List.map_cons, List.head?_cons, Option.mapM_some, map_eq_ok, asText, bind_eq_ok,
        pure_eq_ok] at htext
      rcases htext with ⟨_, ⟨_, _, rfl⟩, rfl⟩
      simp only [Option.mapM_some, map_eq_ok, okOr_eq_ok, Option.filter_eq_some_iff] at hversion
      rcases hversion with ⟨n, ⟨hn, _⟩, _⟩
      rcases parseSigned_bytes hn w hdecoded with h | rfl | rfl
      · simp only [isOws, Bool.or_eq_true, decide_eq_true_eq] at hw
        rcases hw with rfl | rfl
        · cases h
        · cases h
      · cases hw
      · cases hw

/-! ## 4. The whole value -/

theorem splitOnce_question (raw : Bytes) : ∃ path query rest,
    (splitOnce 63 raw).getD (raw, []) = (path, query) ∧ raw = path ++ rest ∧ 63 ∉ path
      ∧ (∀ path', 63 ∉ path' →
        (splitOnce 63 (path' ++ rest)).getD (path' ++ rest, []) = (path', query))
      ∧ ∀ b ∈ rest, b = 63 ∨ b ∈ query := by
  cases hsplit : splitOnce 63 raw with
  | none =>
    refine ⟨raw, [], [], rfl, by simp, splitOnce_eq_none_iff.mp hsplit, ?_, by simp⟩
    intro path' hpath'
    rw [List.append_nil, splitOnce_eq_none_iff.mpr hpath']
    rfl
  | some parts =>
    rcases parts with ⟨path, query⟩
    rcases splitOnce_eq hsplit with ⟨rfl, hfree⟩
    refine ⟨path, query, 63 :: query, rfl, rfl, hfree, ?_, by simp⟩
    intro path' hpath'
    rw [splitOnce_append hpath']
    rfl

theorem copySourcePath_doubled {path left right : Bytes} {w : UInt8} (hw : isOws w = true)
    (h : copySourcePath path = 47 :: (left ++ w :: right)) : ∃ start, path = start ++ w :: right
      ∧ copySourcePath (start ++ w :: w :: right) = 47 :: (left ++ w :: w :: right) := by
  unfold copySourcePath at h
  split at h
  · subst h
    exact ⟨47 :: left, rfl, rfl⟩
  · rename_i hslash
    rcases List.cons.inj h with ⟨_, rfl⟩
    refine ⟨left, rfl, if_neg ?_⟩
    cases left with
    | nil => simpa using (isOws_plain hw).2.2.2.1
    | cons b left => simpa using hslash

/-- **A blank in a copy source can be doubled, and another object is copied.** -/
theorem copySourceOf_doubled {raw : Bytes} {source : CopySource} {w : UInt8}
    (h : copySourceOf raw = .ok source) (hw : isOws w = true) (hmem : w ∈ raw) :
    ∃ left right source', raw = left ++ w :: right
      ∧ copySourceOf (left ++ w :: w :: right) = .ok source' ∧ source' ≠ source := by
  rcases splitOnce_question raw with ⟨path, query, rest, hparts, rfl, hfree, hagain, hrest⟩
  simp only [copySourceOf, hparts, asInvalidRequest, bind_eq_ok, pure_eq_ok, ensure_eq_ok,
    okOr_eq_ok, mapError_eq_ok] at h
  rcases h with ⟨_, hutf8, parsed, hparsed, sourceQuery, hquery, _, hnames, bucket, hbucket, key,
    hkey, version, hversion, rfl⟩
  -- Blanks are in the path only.
  have hnoBlank := copySourceQuery_no_blank hquery hnames hversion hw
  have hpath : w ∈ path := by
    rcases List.mem_append.mp hmem with h | h
    · exact h
    · rcases hrest w h with h | h
      · exact absurd h (isOws_plain hw).2.2.2.2.1
      · exact absurd h hnoBlank
  rcases Option.filter_eq_some_iff.mp hkey with ⟨hkeySome, hnonempty⟩
  have hslash : ∃ text, copySourcePath path = 47 :: text ∧ w ∈ text := by
    unfold copySourcePath
    split
    · rename_i hhead
      rcases List.head?_eq_some_iff.mp hhead with ⟨text, rfl⟩
      refine ⟨text, rfl, ?_⟩
      rcases List.mem_cons.mp hpath with h | h
      · exact absurd h (isOws_plain hw).2.2.2.1
      · exact h
    · exact ⟨path, rfl, hpath⟩
  rcases hslash with ⟨text, htext, hwtext⟩
  have htarget : parsed = ⟨some bucket, some key⟩ := by
    cases parsed
    simp_all
  rw [htext, htarget] at hparsed
  rcases parsePathStyle_doubled hw hwtext hparsed with
    ⟨left, right, bucket', key', rfl, hparsed', hlength, hdiffer⟩
  rcases copySourcePath_doubled hw htext with ⟨start, rfl, hpath'⟩
  have hkey' : key' ≠ [] := by
    rintro rfl
    simp only [nonempty, decide_eq_true_eq] at hnonempty
    exact hnonempty (List.eq_nil_of_length_eq_zero (by simpa using hlength))
  refine ⟨start, right ++ rest, ⟨bucket', key', version⟩, by simp, ?_, ?_⟩
  · have hparts' := hagain (start ++ w :: w :: right) (mem_doubled.not.mpr hfree)
    have hassoc : start ++ w :: w :: right ++ rest = start ++ w :: w :: (right ++ rest) := by
      simp
    rw [hassoc] at hparts'
    have hutf8' : validUtf8 (start ++ w :: w :: (right ++ rest)) = true := by
      apply validUtf8_doubled hw
      simpa using hutf8
    simp only [copySourceOf, hparts', hpath', asInvalidRequest, bind_eq_ok, pure_eq_ok,
      ensure_eq_ok, okOr_eq_ok, mapError_eq_ok]
    exact ⟨(), hutf8', _, hparsed', sourceQuery, hquery, (), hnames, bucket', rfl, key',
      by simp [nonempty, hkey'], version, hversion, rfl⟩
  · intro heq
    rcases CopySource.mk.inj heq with ⟨hb, hk, _⟩
    exact hdiffer (Prod.ext hb hk)

end Pgs3.S3
