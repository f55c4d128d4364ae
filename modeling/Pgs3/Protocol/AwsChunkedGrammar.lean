import Pgs3.Protocol.AwsChunkedRounds

/-!
# The `aws-chunked` wire format

What the decoder accepts, as a grammar: chunks of a size line, data and a line end, one line
of size zero, the declared checksums as trailers, an empty line.  The decoder reaches `Done`
exactly on these encodings, and its output is the data of the chunks.

A size line is spelled in hexadecimal digits of either case, leading zeros included; in signed
mode it carries a signature.  A trailer may have white space around its value, and one line
feed behind it.
-/

namespace Pgs3.Protocol

open Foundation Foundation.Stateful

/-! ## 1. Size lines -/

def digitValue (b : UInt8) : Nat :=
  if b ≤ 57 then b.toNat - 48 else if b ≤ 70 then b.toNat - 55 else b.toNat - 87

def hexValue (digits : Bytes) : Nat := digits.foldl (fun n d => n * 16 + digitValue d) 0

/-- Between one and sixteen hexadecimal digits for the number. -/
structure Spells (digits : Bytes) (n : Nat) : Prop where
  nonempty : digits ≠ []
  length_le : digits.length ≤ 16
  hex : digits.all isAsciiHexdigit = true
  value : hexValue digits = n

theorem hexNibble_eq (b : UInt8) :
    hexNibble b = if isAsciiHexdigit b then some (UInt8.ofNat (digitValue b)) else none := by
  apply of_decide_eq_true
  revert b
  exact forall_byte (by decide +kernel)

variable {b : UInt8}

theorem digitValue_lt (h : isAsciiHexdigit b = true) : digitValue b < 16 := by
  have hall : ∀ b, decide (isAsciiHexdigit b = true → digitValue b < 16) = true :=
    forall_byte (by decide +kernel)
  exact of_decide_eq_true (hall b) h

theorem foldl_hex_lt (digits : Bytes) (h : digits.all isAsciiHexdigit = true) (n : Nat) :
    digits.foldl (fun n d => n * 16 + digitValue d) n < (n + 1) * 16 ^ digits.length := by
  induction digits generalizing n with
  | nil => simp
  | cons d digits ih =>
    rw [List.all_cons, Bool.and_eq_true] at h
    have hd := digitValue_lt h.1
    calc (d :: digits).foldl (fun n d => n * 16 + digitValue d) n
        < (n * 16 + digitValue d + 1) * 16 ^ digits.length := ih h.2 _
      _ ≤ ((n + 1) * 16) * 16 ^ digits.length := Nat.mul_le_mul_right _ (by omega)
      _ = (n + 1) * 16 ^ (d :: digits).length := by
          rw [List.length_cons, Nat.pow_succ, Nat.mul_assoc, Nat.mul_comm 16]

theorem mapM_hexNibble (digits : Bytes) (h : digits.all isAsciiHexdigit = true) :
    digits.mapM hexNibble = some (digits.map fun d => UInt8.ofNat (digitValue d)) := by
  induction digits with
  | nil => rfl
  | cons d digits ih =>
    rw [List.all_cons, Bool.and_eq_true] at h
    rw [List.mapM_cons, hexNibble_eq, if_pos h.1, ih h.2]
    rfl

theorem foldl_nibbles (digits : Bytes) (h : digits.all isAsciiHexdigit = true) (n : Nat) :
    (digits.map fun d => UInt8.ofNat (digitValue d)).foldl (fun n d => n * 16 + d.toNat) n
      = digits.foldl (fun n d => n * 16 + digitValue d) n := by
  induction digits generalizing n with
  | nil => rfl
  | cons d digits ih =>
    rw [List.all_cons, Bool.and_eq_true] at h
    have hd := digitValue_lt h.1
    have hvalue : (UInt8.ofNat (digitValue d)).toNat = digitValue d :=
      UInt8.toNat_ofNat_of_lt' (Nat.lt_trans hd (by decide))
    rw [List.map_cons, List.foldl_cons, List.foldl_cons, hvalue, ih h.2]

variable {digits : Bytes}

theorem fromStrRadix16_eq (hhex : digits.all isAsciiHexdigit = true) (hlen : digits.length ≤ 16) :
    fromStrRadix16 digits = some (hexValue digits) := by
  have hfold := foldl_nibbles digits hhex 0
  have hlt : hexValue digits < 2 ^ 64 := by
    calc hexValue digits < (0 + 1) * 16 ^ digits.length := foldl_hex_lt digits hhex 0
      _ = 16 ^ digits.length := by rw [Nat.zero_add, Nat.one_mul]
      _ ≤ 16 ^ 16 := Nat.pow_le_pow_right (by decide) hlen
      _ = 2 ^ 64 := by decide
  simp only [fromStrRadix16, mapM_hexNibble digits hhex, Option.bind_eq_bind, Option.bind_some,
    hfold]
  exact if_pos hlt

/-- The text between the size and the signature. -/
def signatureMark : Bytes := ascii ";chunk-signature="

/-- A size line: the digits, and in signed mode the signature as text. -/
def sizeLine (digits : Bytes) : Option Bytes → Bytes
  | none => digits
  | some text => digits ++ signatureMark ++ text

variable {signature : Option Digest32}

theorem parseExtensions_some {fields : List Bytes} {own : Digest32} :
    parseExtensions fields (some own) = .ok signature ↔ fields = [] ∧ signature = some own := by
  cases fields with
  | nil =>
    simp only [parseExtensions, Except.ok.injEq, true_and]
    exact eq_comm
  | cons extension fields =>
    rw [parseExtensions]
    cases splitOnce 61 extension with
    | none => simp
    | some parts => simp

theorem parseExtensions_none {fields : List Bytes} : parseExtensions fields none = .ok signature ↔
      fields = [] ∧ signature = none ∨ ∃ text own, decodeHex32 text = some own ∧
        signature = some own ∧ fields = [ascii "chunk-signature" ++ 61 :: text] := by
  cases fields with
  | nil =>
    simp only [parseExtensions, Except.ok.injEq, true_and, List.nil_eq, reduceCtorEq, and_false,
      exists_false, or_false]
    exact eq_comm
  | cons extension fields =>
    simp only [reduceCtorEq, false_and, false_or]
    constructor
    · intro h
      rw [parseExtensions] at h
      cases hsplit : splitOnce 61 extension with
      | none =>
        rw [hsplit] at h
        cases h
      | some parts =>
        obtain ⟨name, text⟩ := parts
        simp only [hsplit, Option.isSome_none, Bool.false_eq_true, or_false] at h
        split at h
        · cases h
        · rename_i hname
          cases hown : decodeHex32 text with
          | none =>
            rw [hown] at h
            cases h
          | some own =>
            simp only [hown] at h
            obtain ⟨rfl, rfl⟩ := parseExtensions_some.mp h
            have hextension := (splitOnce_eq hsplit).1
            rw [not_ne_iff.mp hname] at hextension
            exact ⟨text, own, hown, rfl, by rw [hextension]⟩
    · rintro ⟨text, own, hown, rfl, hfields⟩
      obtain ⟨rfl, rfl⟩ := List.cons.inj hfields
      have hsplit : splitOnce 61 (ascii "chunk-signature" ++ 61 :: text)
          = some (ascii "chunk-signature", text) := splitOnce_append (by decide)
      rw [parseExtensions, hsplit]
      simp only [ne_eq, not_true_eq_false, Option.isSome_none, Bool.false_eq_true, or_false,
        if_false, hown]
      exact parseExtensions_some.mpr ⟨rfl, rfl⟩

theorem decodePairs_hex {text out : Bytes} (heven : text.length % 2 = 0)
    (h : decodePairs text = some out) : text.all isAsciiHexdigit = true := by
  induction text using decodePairs.induct generalizing out with
  | case1 high low rest ih =>
    simp only [decodePairs, bind, pure, Option.bind_eq_some_iff] at h
    obtain ⟨a, ha, b, hb, tail, htail, _⟩ := h
    have hhex : ∀ {d v : UInt8}, hexNibble d = some v → isAsciiHexdigit d = true := by
      intro d v hd
      rw [hexNibble_eq] at hd
      split at hd
      · assumption
      · cases hd
    simp only [List.all_cons, Bool.and_eq_true]
    exact ⟨hhex ha, hhex hb, ih (by simp only [List.length_cons] at heven; omega) htail⟩
  | case2 text hshape =>
    rcases text with _ | ⟨high, _ | ⟨low, rest⟩⟩
    · rfl
    · cases heven
    · exact absurd rfl (hshape high low rest)

theorem decodeHex32_hex {text : Bytes} {own : Digest32} (h : decodeHex32 text = some own) :
    text.length = 64 ∧ text.all isAsciiHexdigit = true := by
  unfold decodeHex32 at h
  split at h
  · rename_i hlen
    refine ⟨hlen, ?_⟩
    split at h
    · rename_i out hpairs
      exact decodePairs_hex (by rw [hlen]) hpairs
    · cases h
  · cases h

theorem hex_not_mem (h : digits.all isAsciiHexdigit = true) (hb : isAsciiHexdigit b = false) :
    b ∉ digits := by
  intro hmem
  have hhex := List.all_eq_true.mp h b hmem
  rw [hb] at hhex
  cases hhex

def sizeFields (digits : Bytes) : Option Bytes → List Bytes
  | none => [digits]
  | some text => [digits, ascii "chunk-signature" ++ 61 :: text]

theorem sizeLine_eq (digits : Bytes) (text : Option Bytes) :
    sizeLine digits text = [59].intercalate (sizeFields digits text) := by
  cases text with
  | none => simp [sizeLine, sizeFields]
  | some text =>
    have hmark : signatureMark = 59 :: ascii "chunk-signature" ++ [61] := by decide
    simp [sizeLine, sizeFields, hmark, List.intercalate, List.intersperse]

theorem splitOn_sizeLine {text : Option Bytes} (hdigits : digits.all isAsciiHexdigit = true)
    (htext : ∀ t ∈ text, (decodeHex32 t).isSome) :
    (sizeLine digits text).splitOn 59 = sizeFields digits text := by
  rw [sizeLine_eq]
  apply List.splitOn_intercalate
  · intro field hfield
    cases text with
    | none =>
      rw [List.mem_singleton.mp hfield]
      exact hex_not_mem hdigits (by decide)
    | some text =>
      obtain ⟨own, hown⟩ := Option.isSome_iff_exists.mp (htext text rfl)
      have hhex := hex_not_mem (b := 59) (decodeHex32_hex hown).2 (by decide)
      rcases List.mem_cons.mp hfield with rfl | hfield
      · exact hex_not_mem hdigits (by decide)
      · rw [List.mem_singleton.mp hfield, List.mem_append, List.mem_cons]
        rintro (hmem | hmem | hmem)
        · exact absurd hmem (by decide)
        · exact absurd hmem (by decide)
        · exact hhex hmem
  · cases text <;> exact List.cons_ne_nil _ _

/-- **Size lines.**  What `parse_chunk_header` accepts. -/
theorem parseChunkHeader_ok {line : Bytes} {n : Nat} :
    parseChunkHeader line = .ok (n, signature) ↔ ∃ digits text, Spells digits n ∧
      (∀ t ∈ text, (decodeHex32 t).isSome) ∧ line = sizeLine digits text ∧
      signature = text.bind decodeHex32 := by
  constructor
  · intro h
    have hline : [59].intercalate (line.splitOn 59) = line := List.intercalate_splitOn 59
    unfold parseChunkHeader at h
    cases hsplit : line.splitOn 59 with
    | nil =>
      rw [hsplit] at h
      cases h
    | cons digits fields =>
      rw [hsplit] at h hline
      dsimp only at h
      split at h
      · cases h
      · rename_i hgood
        simp only [not_or, not_not, List.isEmpty_iff, not_lt] at hgood
        obtain ⟨hnonempty, hlen, hhex⟩ := hgood
        simp only [fromStrRadix16_eq hhex hlen] at h
        cases hfields : parseExtensions fields none with
        | error e =>
          rw [hfields] at h
          cases h
        | ok own =>
          rw [hfields] at h
          cases h
          have hspells : Spells digits (hexValue digits) := ⟨hnonempty, hlen, hhex, rfl⟩
          rcases parseExtensions_none.mp hfields with ⟨rfl, rfl⟩ | ⟨text, own, hown, rfl, rfl⟩
          · refine ⟨digits, none, hspells, by simp, ?_, rfl⟩
            rw [sizeLine_eq]
            exact hline.symm
          · refine ⟨digits, some text, hspells, by simp [hown], ?_, by simp [hown]⟩
            rw [sizeLine_eq]
            exact hline.symm
  · rintro ⟨digits, text, hspells, htext, rfl, rfl⟩
    have hgood : ¬ (digits.isEmpty = true ∨ 16 < digits.length ∨
        ¬ digits.all isAsciiHexdigit = true) := by
      simp only [not_or, not_not, List.isEmpty_iff, not_lt]
      exact ⟨hspells.nonempty, hspells.length_le, hspells.hex⟩
    have hvalue := fromStrRadix16_eq hspells.hex hspells.length_le
    rw [hspells.value] at hvalue
    cases text with
    | none =>
      have hfields := parseExtensions_none.mpr (Or.inl ⟨rfl, rfl⟩)
      rw [parseChunkHeader, splitOn_sizeLine hspells.hex htext]
      simp only [sizeFields, hgood, if_false, hvalue, hfields]
      rfl
    | some text =>
      obtain ⟨own, hown⟩ := Option.isSome_iff_exists.mp (htext text rfl)
      have hfields := parseExtensions_none.mpr (Or.inr ⟨text, own, hown, rfl, rfl⟩)
      rw [parseChunkHeader, splitOn_sizeLine hspells.hex htext]
      simp only [sizeFields, hgood, if_false, hvalue, hfields, Option.bind_some, hown]
      rfl

/-! ## 2. Trailer lines -/

/-- A trailer with the white space and the line feed that it may carry. -/
structure TrailerLine where
  name : Bytes
  lead : Bytes
  value : Bytes
  feed : Bytes
  trail : Bytes

namespace TrailerLine

def text (t : TrailerLine) : Bytes :=
  t.name ++ 58 :: (t.lead ++ t.value ++ t.feed ++ t.trail)

def field (t : TrailerLine) : DecodedTrailer := ⟨t.name, t.value⟩

structure WellFormed (t : TrailerLine) : Prop where
  name_nonempty : t.name ≠ []
  name_lower : t.name.all (fun b => isAsciiLowercase b || isAsciiDigit b || b = 45) = true
  value_nonempty : t.value ≠ []
  value_graphic : t.value.all isAsciiGraphic = true
  lead_ows : t.lead.all isOws = true
  trail_ows : t.trail.all isOws = true
  feed_once : t.feed = [] ∨ t.feed = [10]

end TrailerLine

theorem dropWhile_ows {lead rest : Bytes} (hlead : lead.all isOws = true)
    (hrest : rest.head?.any isOws = false) : (lead ++ rest).dropWhile isOws = rest := by
  induction lead with
  | nil =>
    cases rest with
    | nil => rfl
    | cons b rest =>
      have hb : isOws b = false := by simpa using hrest
      rw [List.nil_append, List.dropWhile_cons, hb]
      rfl
  | cons b lead ih =>
    rw [List.all_cons, Bool.and_eq_true] at hlead
    rw [List.cons_append, List.dropWhile_cons, hlead.1]
    exact ih hlead.2

variable {value : Bytes}

theorem trimOws_append {lead trail : Bytes} (hlead : lead.all isOws = true)
    (htrail : trail.all isOws = true) (hfirst : value.head?.any isOws = false)
    (hlast : value.getLast?.any isOws = false) : trimOws (lead ++ value ++ trail) = value := by
  cases value with
  | nil =>
    have hall : (lead ++ [] ++ trail).all isOws = true := by
      rw [List.append_nil, List.all_append, hlead, htrail]
      rfl
    have hdrop := @dropWhile_ows _ [] hall rfl
    rw [List.append_nil] at hdrop
    simp only [trimOws, hdrop]
    rfl
  | cons b value =>
    have hstart : (lead ++ (b :: value) ++ trail).dropWhile isOws = b :: value ++ trail := by
      rw [List.append_assoc]
      exact dropWhile_ows hlead hfirst
    have hend : (b :: value ++ trail).reverse.dropWhile isOws = (b :: value).reverse := by
      rw [List.reverse_append]
      apply dropWhile_ows
      · rwa [List.all_reverse]
      · rwa [List.head?_reverse]
    rw [trimOws, hstart, hend, List.reverse_reverse]

/-- What `trim_ows` cuts off is white space, and nothing is left of it at the ends. -/
theorem exists_trimOws (value : Bytes) : ∃ lead trail, value = lead ++ trimOws value ++ trail ∧
    lead.all isOws = true ∧ trail.all isOws = true := by
  refine ⟨value.takeWhile isOws,
    ((value.dropWhile isOws).reverse.takeWhile isOws).reverse, ?_, ?_, ?_⟩
  · have hfirst := List.takeWhile_append_dropWhile (p := isOws) (l := value)
    have hsecond := List.takeWhile_append_dropWhile (p := isOws)
      (l := (value.dropWhile isOws).reverse)
    have hback := congrArg List.reverse hsecond
    rw [List.reverse_append, List.reverse_reverse] at hback
    rw [trimOws, List.append_assoc, hback, hfirst]
  · exact List.all_takeWhile
  · rw [List.all_reverse]
    exact List.all_takeWhile

theorem not_ows_of_graphic (h : isAsciiGraphic b = true) : isOws b = false ∧ b ≠ 10 := by
  have hall : ∀ b, decide (isAsciiGraphic b = true → isOws b = false ∧ b ≠ 10) = true :=
    forall_byte (by decide +kernel)
  exact of_decide_eq_true (hall b) h

theorem trailer_name_byte (h : (isAsciiLowercase b || isAsciiDigit b || decide (b = 45)) = true) :
    isOws b = false ∧ b ≠ 58 := by
  have hall : ∀ b, decide ((isAsciiLowercase b || isAsciiDigit b || decide (b = 45)) = true →
      isOws b = false ∧ b ≠ 58) = true := forall_byte (by decide +kernel)
  exact of_decide_eq_true (hall b) h

/-- One line feed at the end is cut off. -/
def dropFeed (value : Bytes) : Bytes := if value.getLast? = some 10 then value.dropLast else value

theorem dropFeed_append {feed : Bytes} (hgraphic : value.all isAsciiGraphic = true)
    (hfeed : feed = [] ∨ feed = [10]) : dropFeed (value ++ feed) = value := by
  rcases hfeed with rfl | rfl
  · rw [List.append_nil, dropFeed]
    apply if_neg
    intro hlast
    have hmem := List.mem_of_getLast? hlast
    exact (not_ows_of_graphic (List.all_eq_true.mp hgraphic 10 hmem)).2 rfl
  · rw [dropFeed, List.getLast?_concat, if_pos rfl, List.dropLast_concat]

theorem exists_dropFeed (value : Bytes) :
    ∃ feed, (feed = [] ∨ feed = [10]) ∧ value = dropFeed value ++ feed := by
  by_cases hlast : value.getLast? = some 10
  · refine ⟨[10], Or.inr rfl, ?_⟩
    rw [dropFeed, if_pos hlast, List.dropLast_append_getLast? 10 hlast]
  · refine ⟨[], Or.inl rfl, ?_⟩
    rw [dropFeed, if_neg hlast, List.append_nil]

theorem parseTrailer_eq (line : Bytes) :
    parseTrailer line =
      if line.head?.any isOws then .error .invalidTrailer
      else
        match splitOnce 58 line with
        | none => .error .invalidTrailer
        | some (name, rest) =>
            if name.isEmpty ∨ ¬ name.all (fun b => isAsciiLowercase b || isAsciiDigit b || b = 45)
            then .error .invalidTrailer
            else if (dropFeed (trimOws rest)).isEmpty ∨
                ¬ (dropFeed (trimOws rest)).all isAsciiGraphic then .error .invalidTrailer
            else .ok (name, dropFeed (trimOws rest)) := rfl

/-- **Trailer lines.**  What `accept_trailer` reads as a field. -/
theorem parseTrailer_ok {line name : Bytes} : parseTrailer line = .ok (name, value) ↔
      ∃ t : TrailerLine, t.WellFormed ∧ t.text = line ∧ t.name = name ∧ t.value = value := by
  constructor
  · intro h
    rw [parseTrailer_eq] at h
    split at h
    · cases h
    · cases hsplit : splitOnce 58 line with
      | none =>
        rw [hsplit] at h
        cases h
      | some parts =>
        obtain ⟨left, rest⟩ := parts
        simp only [hsplit] at h
        split at h
        · cases h
        · rename_i hname
          split at h
          · cases h
          · rename_i hvalue
            cases h
            simp only [not_or, not_not, List.isEmpty_iff] at hname hvalue
            obtain ⟨lead, trail, hrest, hlead, htrail⟩ := exists_trimOws rest
            obtain ⟨feed, hfeed, htrimmed⟩ := exists_dropFeed (trimOws rest)
            refine ⟨⟨name, lead, dropFeed (trimOws rest), feed, trail⟩,
              ⟨hname.1, hname.2, hvalue.1, hvalue.2, hlead, htrail, hfeed⟩, ?_, rfl, rfl⟩
            rw [TrailerLine.text, List.append_assoc lead, ← htrimmed, ← hrest]
            exact (splitOnce_eq hsplit).1.symm
  · rintro ⟨t, ht, rfl, rfl, rfl⟩
    have hfree : (58 : UInt8) ∉ t.name := fun hmem =>
      (trailer_name_byte (List.all_eq_true.mp ht.name_lower 58 hmem)).2 rfl
    have hsplit : splitOnce 58 t.text
        = some (t.name, t.lead ++ t.value ++ t.feed ++ t.trail) := splitOnce_append hfree
    have hstart : t.text.head?.any isOws = false := by
      obtain ⟨b, rest, hname⟩ := List.exists_cons_of_ne_nil ht.name_nonempty
      have hb := List.all_eq_true.mp ht.name_lower b (by rw [hname]; exact List.mem_cons_self)
      rw [TrailerLine.text, hname]
      exact (trailer_name_byte hb).1
    have htrim : trimOws (t.lead ++ t.value ++ t.feed ++ t.trail) = t.value ++ t.feed := by
      rw [List.append_assoc t.lead]
      apply trimOws_append ht.lead_ows ht.trail_ows
      · obtain ⟨b, rest, hvalue⟩ := List.exists_cons_of_ne_nil ht.value_nonempty
        have hb := List.all_eq_true.mp ht.value_graphic b (by rw [hvalue]; exact List.mem_cons_self)
        rw [hvalue]
        exact (not_ows_of_graphic hb).1
      · rcases ht.feed_once with hfeed | hfeed
        · rw [hfeed, List.append_nil, Option.any_eq_false]
          intro b hb
          have hgraphic := List.all_eq_true.mp ht.value_graphic b (List.mem_of_getLast? hb)
          simp [(not_ows_of_graphic hgraphic).1]
        · rw [hfeed, List.getLast?_concat]
          rfl
    have hname : ¬ (t.name.isEmpty = true ∨ ¬ t.name.all
        (fun b => isAsciiLowercase b || isAsciiDigit b || decide (b = 45)) = true) := by
      simp only [not_or, not_not, List.isEmpty_iff]
      exact ⟨ht.name_nonempty, ht.name_lower⟩
    have hvalue : ¬ (t.value.isEmpty = true ∨ ¬ t.value.all isAsciiGraphic = true) := by
      simp only [not_or, not_not, List.isEmpty_iff]
      exact ⟨ht.value_nonempty, ht.value_graphic⟩
    rw [parseTrailer_eq, hstart, hsplit]
    simp only [Bool.false_eq_true, if_false, hname, htrim,
      dropFeed_append ht.value_graphic ht.feed_once, hvalue]

/-! ## 3. Encodings -/

/-- A chunk on the wire: the digits of its size, the text of its signature, its data. -/
structure WireChunk where
  digits : Bytes
  signature : Option Bytes
  data : Bytes

namespace WireChunk

def header (c : WireChunk) : Bytes := sizeLine c.digits c.signature

/-- The signature that the text stands for. -/
def own (c : WireChunk) : Option Digest32 := c.signature.bind decodeHex32

def wire (c : WireChunk) : Bytes := c.header ++ crlf ++ c.data ++ crlf

/-- The chunk is spelled as it should be, keeps to the limits behind `decoded` bytes, and is
    signed behind the signature `previous`. -/
structure Fits (K : Crates) (mode : AwsChunkedMode) (limits : ChunkedLimits) (decoded : Nat)
    (previous : Option Digest32) (c : WireChunk) : Prop where
  spells : Spells c.digits c.data.length
  text : ∀ t ∈ c.signature, (decodeHex32 t).isSome
  header_le : c.header.length ≤ limits.maxChunkHeaderBytes
  size_le : c.data.length ≤ min limits.maxChunkBytes maxBufferedChunkBytes
  admits : limits.admits decoded c.data.length
  authentic : Authentic K mode previous c.data c.own

end WireChunk

def chunkWires (chunks : List WireChunk) : Bytes := chunks.flatMap WireChunk.wire

def chunkData (chunks : List WireChunk) : Bytes := chunks.flatMap WireChunk.data

/-- The signature that the next chunk is chained to. -/
def lastSignature (seed : Option Digest32) (chunks : List WireChunk) : Option Digest32 :=
  chunks.foldl (fun previous c => c.own.or previous) seed

/-- Nonempty chunks, each of which fits behind those before it. -/
def ChunksFit (K : Crates) (mode : AwsChunkedMode) (limits : ChunkedLimits) :
    Nat → Option Digest32 → List WireChunk → Prop
  | _, _, [] => True
  | decoded, previous, c :: chunks =>
      c.data ≠ [] ∧ c.Fits K mode limits decoded previous ∧
        ChunksFit K mode limits (decoded + c.data.length) (c.own.or previous) chunks

variable {mode : AwsChunkedMode} {limits : ChunkedLimits}

theorem chunksFit_append {K : Crates} {c : WireChunk} :
    ∀ {chunks : List WireChunk} {decoded : Nat} {previous : Option Digest32},
      ChunksFit K mode limits decoded previous chunks → c.data ≠ [] →
      c.Fits K mode limits (decoded + (chunkData chunks).length) (lastSignature previous chunks) →
      ChunksFit K mode limits decoded previous (chunks ++ [c])
  | [], _, _, _, hdata, hfits => ⟨hdata, hfits, trivial⟩
  | d :: chunks, decoded, previous, ⟨hfirst, hown, hrest⟩, hdata, hfits => by
      refine ⟨hfirst, hown, chunksFit_append hrest hdata ?_⟩
      have hlength : decoded + d.data.length + (chunkData chunks).length
          = decoded + (chunkData (d :: chunks)).length := by
        rw [chunkData, chunkData, List.flatMap_cons, List.length_append, Nat.add_assoc]
      rw [hlength]
      exact hfits

@[simp] theorem chunkWires_append (chunks : List WireChunk) (c : WireChunk) :
    chunkWires (chunks ++ [c]) = chunkWires chunks ++ c.wire := by
  simp [chunkWires]

@[simp] theorem chunkData_append (chunks : List WireChunk) (c : WireChunk) :
    chunkData (chunks ++ [c]) = chunkData chunks ++ c.data := by
  simp [chunkData]

@[simp] theorem lastSignature_append (seed : Option Digest32) (chunks : List WireChunk)
    (c : WireChunk) : lastSignature seed (chunks ++ [c]) = c.own.or (lastSignature seed chunks) := by
  simp [lastSignature]

inductive ChecksumAlgorithm where
  | crc32 | crc32c | sha1 | sha256 | crc64nvme

namespace ChecksumAlgorithm

/-- The trailer that carries the checksum. -/
def trailer : ChecksumAlgorithm → Bytes
  | crc32 => ascii "x-amz-checksum-crc32"
  | crc32c => ascii "x-amz-checksum-crc32c"
  | sha1 => ascii "x-amz-checksum-sha1"
  | sha256 => ascii "x-amz-checksum-sha256"
  | crc64nvme => ascii "x-amz-checksum-crc64nvme"

/-- How many bytes the checksum has. -/
def width : ChecksumAlgorithm → Nat
  | crc32 | crc32c => 4
  | sha1 => 20
  | sha256 => 32
  | crc64nvme => 8

def apply (K : Crates) : ChecksumAlgorithm → Bytes → Bytes
  | crc32 => K.crc32
  | crc32c => K.crc32c
  | sha1 => K.sha1
  | sha256 => K.sha256
  | crc64nvme => K.crc64nvme

end ChecksumAlgorithm

/-- The value of a trailer is the checksum of the body: padded base64 text, four characters for
    three bytes, that decodes to it. -/
def Checksum (K : Crates) (body name value : Bytes) : Prop :=
  ∃ a : ChecksumAlgorithm, a.trailer = name ∧ value.length = 4 * ((a.width + 2) / 3) ∧
    K.base64Decode value = some (a.apply K body)

/-- The parts of an encoded body. -/
structure ChunkedEncoding where
  chunks : List WireChunk
  final : WireChunk
  trailers : List TrailerLine

namespace ChunkedEncoding

def body (e : ChunkedEncoding) : Bytes := chunkData e.chunks

def trailerWires (trailers : List TrailerLine) : Bytes := trailers.flatMap fun t => t.text ++ crlf

def wire (e : ChunkedEncoding) : Bytes :=
  chunkWires e.chunks ++ e.final.header ++ crlf ++ trailerWires e.trailers ++ crlf

/-- The encoding is within the limits, and says what it should say of the body. -/
structure Valid (K : Crates) (mode : AwsChunkedMode) (limits : ChunkedLimits)
    (e : ChunkedEncoding) : Prop where
  chunks : ChunksFit K mode limits 0 mode.previousSignature e.chunks
  final_empty : e.final.data = []
  final : e.final.Fits K mode limits e.body.length (lastSignature mode.previousSignature e.chunks)
  length : ∀ n ∈ limits.expectedDecodedLength, n = e.body.length
  wellFormed : ∀ t ∈ e.trailers, t.WellFormed
  count_le : e.trailers.length ≤ limits.maxTrailers
  bytes_lt : (trailerWires e.trailers).length + 2 < 2 ^ 64
  bytes_le : (trailerWires e.trailers).length + 2 ≤ limits.maxTrailerBytes
  trailers : match mode with
    | .signed _ => e.trailers = []
    | .unsignedTrailer declared => (e.trailers.map (·.name)).Perm declared ∧
        ∀ t ∈ e.trailers, Checksum K e.body t.name t.value

end ChunkedEncoding

/-! ## 4. Declared checksums -/

/-- The code computes the checksums of the table, and no others. -/
theorem calculatedChecksum_eq_some {K : Crates} {hashed name sum : Bytes} {length : Nat} :
    calculatedChecksum K hashed name = some (sum, length) ↔ ∃ a : ChecksumAlgorithm,
      a.trailer = name ∧ 4 * ((a.width + 2) / 3) = length ∧ a.apply K hashed = sum := by
  constructor
  · intro h
    unfold calculatedChecksum at h
    split_ifs at h with h₁ h₂ h₃ h₄ h₅
    all_goals obtain ⟨rfl, rfl⟩ := Prod.mk.inj (Option.some.inj h)
    · exact ⟨.crc32, h₁.symm, rfl, rfl⟩
    · exact ⟨.crc32c, h₂.symm, rfl, rfl⟩
    · exact ⟨.sha1, h₃.symm, rfl, rfl⟩
    · exact ⟨.sha256, h₄.symm, rfl, rfl⟩
    · exact ⟨.crc64nvme, h₅.symm, rfl, rfl⟩
  · rintro ⟨a, rfl, rfl, rfl⟩
    cases a <;> rfl

theorem checkTrailer_ok {K : Crates} {hashed declared : Bytes} {trailers : List DecodedTrailer} :
    checkTrailer K hashed trailers declared = .ok ⟨⟩ ↔
      ∃ t, trailers.find? (·.name = declared) = some t ∧ Checksum K hashed declared t.value := by
  have hchecksum : ∀ value, Checksum K hashed declared value ↔ ∃ sum length,
      calculatedChecksum K hashed declared = some (sum, length) ∧ value.length = length ∧
        K.base64Decode value = some sum := by
    intro value
    simp only [calculatedChecksum_eq_some]
    constructor
    · rintro ⟨a, ha, hlength, hdecode⟩
      exact ⟨_, _, ⟨a, ha, rfl, rfl⟩, hlength, hdecode⟩
    · rintro ⟨_, _, ⟨a, ha, rfl, rfl⟩, hlength, hdecode⟩
      exact ⟨a, ha, hlength, hdecode⟩
  unfold checkTrailer
  cases trailers.find? (·.name = declared) with
  | none => simp
  | some t =>
    simp only [Option.some.injEq, exists_eq_left', hchecksum]
    cases calculatedChecksum K hashed declared with
    | none => simp
    | some expected =>
      obtain ⟨sum, length⟩ := expected
      simp only [Option.some.injEq, Prod.mk.injEq]
      by_cases hlength : t.value.length = length
      · simp only [hlength, ne_eq, not_true_eq_false, if_false]
        cases K.base64Decode t.value with
        | none => simp
        | some supplied =>
          by_cases heq : supplied = sum
          · simp [heq]
          · have hne : ¬ (sum = supplied) := fun h => heq h.symm
            by_cases hlen : supplied.length = sum.length
            · simp [hlen, heq]
            · simp [hlen, heq]
      · simp [hlength]

theorem forM_ok {α : Type} {xs : List α} {check : α → Except ChunkedError Unit} :
    xs.forM check = .ok ⟨⟩ ↔ ∀ x ∈ xs, check x = .ok ⟨⟩ := by
  induction xs with
  | nil => simp [pure, Except.pure]
  | cons x xs ih =>
    change (check x >>= fun _ => xs.forM check) = .ok ⟨⟩ ↔ _
    rw [List.forall_mem_cons, ← ih]
    cases hx : check x with
    | error e => simp [bind, Except.bind]
    | ok u => simp [bind, Except.bind]

variable {d : AwsChunkedDecoder}

/-- **The end of the trailers.** -/
theorem finishTrailers_ok {K : Crates} :
    finishTrailers K d = .ok ⟨⟩ ↔
      (∀ n ∈ d.limits.expectedDecodedLength, n = d.decodedBytes) ∧
      match d.mode with
      | .signed _ => d.trailers = []
      | .unsignedTrailer declared => ∀ name ∈ declared, ∃ t,
          d.trailers.find? (·.name = name) = some t ∧ Checksum K d.hashed name t.value := by
  have hlength : d.limits.expectedDecodedLength.any (· ≠ d.decodedBytes) = false ↔
      ∀ n ∈ d.limits.expectedDecodedLength, n = d.decodedBytes := by
    cases d.limits.expectedDecodedLength <;> simp
  unfold finishTrailers
  by_cases hexpected : d.limits.expectedDecodedLength.any (· ≠ d.decodedBytes) = true
  · rw [if_pos hexpected]
    constructor
    · intro h
      cases h
    · rintro ⟨hall, _⟩
      rw [hlength.mpr hall] at hexpected
      cases hexpected
  · rw [if_neg hexpected]
    rw [Bool.not_eq_true] at hexpected
    rw [and_iff_right (hlength.mp hexpected)]
    cases d.mode with
    | signed context => cases d.trailers <;> simp
    | unsignedTrailer declared => simp only [forM_ok, checkTrailer_ok]

theorem checkDeclarations_nodup {before names : List Bytes} (hbefore : before.Nodup)
    (h : checkDeclarations before names = .ok ⟨⟩) : (before ++ names).Nodup := by
  induction names generalizing before with
  | nil => rwa [List.append_nil]
  | cons name names ih =>
    rw [checkDeclarations] at h
    split at h
    · cases h
    · split at h
      · cases h
      · rename_i hnew
        have hnext : (before ++ [name]).Nodup := by
          rw [List.nodup_append]
          refine ⟨hbefore, by simp, ?_⟩
          intro a ha b hb hab
          rw [List.mem_singleton] at hb
          exact hnew (by rw [← hb, ← hab]; exact ha)
        have hall := ih hnext h
        rwa [List.append_assoc, List.singleton_append] at hall

/-! ## 5. Encodings are accepted -/

theorem crlfPosition_line {line : Bytes} (h : ¬ crlf <:+: line) (rest : Bytes) :
    crlfPosition (line ++ crlf ++ rest) = some line.length := by
  induction line with
  | nil => rfl
  | cons a line ih =>
    have hline : ¬ crlf <:+: line := fun hin => h (hin.trans (List.suffix_cons a line).isInfix)
    cases line with
    | nil =>
      have hne : ¬ (a = 13 ∧ (13 : UInt8) = 10) := by simp
      change crlfPosition (a :: 13 :: 10 :: rest) = some 1
      rw [crlfPosition, if_neg hne]
      rfl
    | cons b line =>
      have hne : ¬ (a = 13 ∧ b = 10) := by
        rintro ⟨rfl, rfl⟩
        exact h (List.prefix_append crlf line).isInfix
      have hrest := ih hline
      simp only [List.cons_append] at hrest ⊢
      rw [crlfPosition, if_neg hne, hrest]
      rfl

theorem crlf_not_infix {line : Bytes} (h : (13 : UInt8) ∉ line) : ¬ crlf <:+: line :=
  fun hin => h (hin.subset (by decide))

theorem header_line {c : WireChunk} {n : Nat} (hspells : Spells c.digits n)
    (htext : ∀ t ∈ c.signature, (decodeHex32 t).isSome) : ¬ crlf <:+: c.header := by
  apply crlf_not_infix
  have hdigits := hex_not_mem (b := 13) hspells.hex (by decide)
  unfold WireChunk.header
  cases hsignature : c.signature with
  | none => exact hdigits
  | some text =>
    obtain ⟨own, hown⟩ := Option.isSome_iff_exists.mp (htext text hsignature)
    have hhex := hex_not_mem (b := 13) (decodeHex32_hex hown).2 (by decide)
    simp only [sizeLine, List.mem_append, not_or]
    exact ⟨⟨hdigits, by decide⟩, hhex⟩

theorem TrailerLine.WellFormed.line {t : TrailerLine} (h : t.WellFormed) : ¬ crlf <:+: t.text := by
  apply crlf_not_infix
  have hname : (13 : UInt8) ∉ t.name := fun hmem =>
    absurd (List.all_eq_true.mp h.name_lower 13 hmem) (by decide)
  have hvalue : (13 : UInt8) ∉ t.value := fun hmem =>
    absurd (List.all_eq_true.mp h.value_graphic 13 hmem) (by decide)
  have hlead : (13 : UInt8) ∉ t.lead := fun hmem =>
    absurd (List.all_eq_true.mp h.lead_ows 13 hmem) (by decide)
  have htrail : (13 : UInt8) ∉ t.trail := fun hmem =>
    absurd (List.all_eq_true.mp h.trail_ows 13 hmem) (by decide)
  have hfeed : (13 : UInt8) ∉ t.feed := by
    rcases h.feed_once with hfeed | hfeed <;> rw [hfeed] <;> decide
  simp only [TrailerLine.text, List.mem_append, List.mem_cons, not_or]
  exact ⟨hname, by decide, ⟨⟨hlead, hvalue⟩, hfeed⟩, htrail⟩

theorem linePhase_line {limit : Nat} {tooLarge : ChunkedError}
    {handle : Bytes → DecodeM (Option DecodeStatus)} {s : Decoding} {line rest : Bytes}
    (havailable : s.available = line ++ crlf ++ rest) (hline : ¬ crlf <:+: line)
    (hlimit : line.length ≤ limit) :
    linePhase limit tooLarge handle s = handle line (s.advance (line.length + 2)) := by
  have hposition : crlfPosition s.available = some line.length := by
    rw [havailable]
    exact crlfPosition_line hline rest
  have htake : s.available.take line.length = line := by
    rw [havailable, List.append_assoc, List.take_left]
  simp only [linePhase, hposition, not_lt.mpr hlimit, if_false, htake]

section Passing

variable {K : Crates} {s : Decoding} {c : WireChunk} {rest : Bytes}

theorem WireChunk.Fits.announces (h : c.Fits K s.mode s.limits s.decodedBytes s.previousSignature)
    (n : Nat) : Announces K (s.advance n) c.header c.data.length c.own where
  parsed := parseChunkHeader_ok.mpr ⟨c.digits, c.signature, h.spells, h.text, rfl, rfl⟩
  size_le := h.size_le
  admits := h.admits
  expected := signatureExpected_of_authentic h.authentic

/-- The state behind a chunk. -/
def Decoding.passed (s : Decoding) (c : WireChunk) : Decoding :=
  { s with
    offset := s.offset + c.wire.length
    current := none
    previousSignature := c.own.or s.previousSignature
    decodedBytes := s.decodedBytes + c.data.length
    hashed := s.hashed ++ c.data
    output := s.output ++ c.data }

theorem header_round (hphase : s.phase = .header)
    (havailable : s.available = c.header ++ crlf ++ rest)
    (hfits : c.Fits K s.mode s.limits s.decodedBytes s.previousSignature) (hdata : c.data ≠ []) :
    decodeRound K s = (.ok none, { s.advance (c.header.length + 2) with
      current := some ⟨c.data.length, [], c.own, Nat.zero_le _⟩
      phase := .data }) := by
  have hline := header_line hfits.spells hfits.text
  rw [decodeRound_eq, hphase]
  simp only [headerPhase_eq, linePhase_line havailable hline hfits.header_le]
  exact headerLine_ok.mpr ⟨rfl, _, _, hfits.announces _,
    Or.inl ⟨List.length_pos_iff.mpr hdata, rfl⟩⟩

variable {current : CurrentChunk}

theorem receive_all {a : Bytes} (hempty : current.data = []) (hsize : current.size = a.length)
    (f : Bytes) : (current.receive (a ++ f)).data = a := by
  simp only [CurrentChunk.receive, hempty, List.nil_append, List.length_nil, Nat.sub_zero, hsize]
  rw [List.length_append, Nat.min_eq_left (by omega), List.take_left]

theorem received_all {data : Bytes} (hempty : current.data = [])
    (hsize : current.size = data.length) (havailable : s.available = data ++ rest) :
    s.received current = { s with
      current := some ⟨current.size, data, current.signature, by rw [hsize]⟩
      offset := s.offset + data.length
      phase := .dataCrlf } := by
  have hdata : (current.receive s.available).data = data := by
    rw [havailable]
    exact receive_all hempty hsize rest
  have hchunk : current.receive s.available
      = ⟨current.size, data, current.signature, by rw [hsize]⟩ := by
    have hext : ∀ {c d : CurrentChunk}, c.size = d.size → c.data = d.data →
        c.signature = d.signature → c = d := by
      rintro ⟨_, _, _, _⟩ ⟨_, _, _, _⟩ rfl rfl rfl
      rfl
    exact hext rfl hdata rfl
  have hcount : min (current.size - current.data.length) s.available.length = data.length := by
    rw [hempty, hsize, havailable, List.length_append, List.length_nil]
    omega
  simp only [Decoding.received, hcount, hchunk]
  rw [if_pos hsize.symm]

/-- The data of a chunk and its line end. -/
theorem data_rounds {data : Bytes} (hphase : s.phase = .data)
    (hcurrent : s.current = some current) (hempty : current.data = [])
    (hsize : current.size = data.length) (hdata : data ≠ [])
    (havailable : s.available = data ++ (crlf ++ rest))
    (hauthentic : Authentic K s.mode s.previousSignature data current.signature)
    (hadmits : s.limits.admits s.decodedBytes data.length) :
    decodeLoop K s = decodeLoop K { s with
      offset := s.offset + data.length + 2
      current := none
      previousSignature := current.signature.or s.previousSignature
      decodedBytes := s.decodedBytes + data.length
      hashed := s.hashed ++ data
      output := s.output ++ data
      phase := .header } := by
  have hround := data_round (K := K) hphase hcurrent (by rw [havailable]; simp [hdata])
  rw [received_all hempty hsize havailable] at hround
  rw [decodeLoop, loop_next hround]
  apply loop_next
  have hrest : s.input.drop (s.offset + data.length) = crlf ++ rest := by
    rw [drop_available, havailable, List.drop_left]
  rw [decodeRound_eq]
  simp only [dataCrlfPhase_eq, AwsChunkedDecoder.available, hrest]
  have hlen : ¬ (crlf ++ rest).length < 2 := by simp [crlf]
  have htake : ¬ (crlf ++ rest).take 2 ≠ crlf := not_ne_iff.mpr rfl
  rw [if_neg hlen, if_neg htake]
  apply (releaseChunk_ok ?_).mpr
  · exact ⟨rfl, _, rfl, hauthentic, hadmits, rfl⟩
  · rintro c hc
    obtain rfl := Option.some.inj hc
    exact signatureExpected_of_authentic hauthentic

/-- **A chunk passes.** -/
theorem pass_chunk (hphase : s.phase = .header) (havailable : s.available = c.wire ++ rest)
    (hfits : c.Fits K s.mode s.limits s.decodedBytes s.previousSignature) (hdata : c.data ≠ []) :
    decodeLoop K s = decodeLoop K (s.passed c) ∧ (s.passed c).available = rest := by
  have havailable' : s.available = c.header ++ crlf ++ (c.data ++ (crlf ++ rest)) := by
    rw [havailable, WireChunk.wire]
    simp only [List.append_assoc]
  have hround := header_round hphase havailable' hfits hdata
  constructor
  · have hrounds := @data_rounds K { s.advance (c.header.length + 2) with
        current := some ⟨c.data.length, [], c.own, Nat.zero_le _⟩
        phase := .data } rest ⟨c.data.length, [], c.own, Nat.zero_le _⟩ c.data rfl rfl rfl rfl
      hdata ((drop_available s _).trans (line_length havailable').2) hfits.authentic hfits.admits
    have hoffset : s.offset + (c.header.length + 2) + c.data.length + 2
        = s.offset + c.wire.length := by
      simp only [WireChunk.wire, List.length_append, crlf, List.length_cons, List.length_nil]
      omega
    rw [decodeLoop, loop_next hround]
    refine hrounds.trans ?_
    simp only [Decoding.advance, Decoding.passed, hoffset, hphase]
  · change s.input.drop (s.offset + c.wire.length) = rest
    rw [drop_available, havailable, List.drop_left]

/-- What is the same in both states, apart from the chunks that passed in between. -/
structure Behind (s : Decoding) (chunks : List WireChunk) (s' : Decoding) : Prop where
  mode : s'.mode = s.mode
  limits : s'.limits = s.limits
  phase : s'.phase = .header
  decoded : s'.decodedBytes = s.decodedBytes + (chunkData chunks).length
  hashed : s'.hashed = s.hashed ++ chunkData chunks
  output : s'.output = s.output ++ chunkData chunks
  previous : s'.previousSignature = lastSignature s.previousSignature chunks
  trailers : s'.trailers = s.trailers
  trailerBytes : s'.trailerBytes = s.trailerBytes

/-- **Chunks pass.** -/
theorem pass_chunks {chunks : List WireChunk} (hphase : s.phase = .header)
    (havailable : s.available = chunkWires chunks ++ rest)
    (hfit : ChunksFit K s.mode s.limits s.decodedBytes s.previousSignature chunks) :
    ∃ s', decodeLoop K s = decodeLoop K s' ∧ s'.available = rest ∧ Behind s chunks s' := by
  induction chunks generalizing s with
  | nil =>
    refine ⟨s, rfl, havailable, rfl, rfl, hphase, rfl, ?_, ?_, rfl, rfl, rfl⟩
    · simp [chunkData]
    · simp [chunkData]
  | cons c chunks ih =>
    obtain ⟨hdata, hfits, hrest⟩ := hfit
    have havailable' : s.available = c.wire ++ (chunkWires chunks ++ rest) := by
      rw [havailable, chunkWires, List.flatMap_cons, List.append_assoc]
      rfl
    obtain ⟨hloop, hnext⟩ := pass_chunk hphase havailable' hfits hdata
    obtain ⟨s', hloop', hend, hbehind⟩ := ih (s := s.passed c) hphase hnext hrest
    refine ⟨s', hloop.trans hloop', hend, hbehind.mode, hbehind.limits, hbehind.phase, ?_, ?_, ?_,
      hbehind.previous, hbehind.trailers, hbehind.trailerBytes⟩
    · rw [hbehind.decoded]
      simp only [Decoding.passed, chunkData, List.flatMap_cons, List.length_append]
      omega
    · rw [hbehind.hashed]
      simp only [Decoding.passed, chunkData, List.flatMap_cons, List.append_assoc]
    · rw [hbehind.output]
      simp only [Decoding.passed, chunkData, List.flatMap_cons, List.append_assoc]

theorem final_round (hphase : s.phase = .header)
    (havailable : s.available = c.header ++ crlf ++ rest)
    (hfits : c.Fits K s.mode s.limits s.decodedBytes s.previousSignature) (hdata : c.data = []) :
    decodeRound K s = (.ok none, { s.advance (c.header.length + 2) with
      previousSignature := c.own.or s.previousSignature
      phase := .trailers }) := by
  have hline := header_line hfits.spells hfits.text
  have hauthentic := hfits.authentic
  rw [hdata] at hauthentic
  rw [decodeRound_eq, hphase]
  simp only [headerPhase_eq, linePhase_line havailable hline hfits.header_le]
  refine headerLine_ok.mpr ⟨rfl, _, _, hfits.announces _, Or.inr ⟨?_, hauthentic, rfl⟩⟩
  rw [hdata]
  rfl

theorem trailer_round {t : TrailerLine} {declared : List Bytes} (hphase : s.phase = .trailers)
    (hmode : s.mode = .unsignedTrailer declared) (ht : t.WellFormed)
    (havailable : s.available = t.text ++ crlf ++ rest)
    (hlt : s.trailerBytes + (t.text.length + 2) < 2 ^ 64)
    (hle : s.trailerBytes + (t.text.length + 2) ≤ s.limits.maxTrailerBytes)
    (hcount : s.trailers.length < s.limits.maxTrailers)
    (hnew : t.name ∉ s.trailers.map (·.name)) (hdeclared : t.name ∈ declared) :
    decodeRound K s = (.ok none, { s with
      offset := s.offset + (t.text.length + 2)
      trailerBytes := s.trailerBytes + (t.text.length + 2)
      trailers := s.trailers ++ [t.field] }) := by
  have hparsed : parseTrailer t.text = .ok (t.name, t.value) :=
    parseTrailer_ok.mpr ⟨t, ht, rfl, rfl, rfl⟩
  have hnonempty : t.text ≠ [] := by
    rw [TrailerLine.text]
    simp [ht.name_nonempty]
  have haccept := (acceptTrailer_ok
    (s := (s.advance (t.text.length + 2)).counted t.text)).mpr
    ⟨declared, t.name, t.value, hmode, hcount, hparsed, hnew, hdeclared, rfl⟩
  have hhandle := (trailerLine_ok (K := K) (s := s.advance (t.text.length + 2))).mpr
    ⟨hlt, hle, Or.inr ⟨hnonempty, rfl, haccept⟩⟩
  have hround : decodeRound K s = trailersPhase K s := by rw [decodeRound_eq, hphase]
  rw [hround, trailersPhase_eq, linePhase_line havailable ht.line (by omega), run_bind, hhandle]
  rfl

/-- **Trailers pass.** -/
theorem pass_trailers {trailers : List TrailerLine} {declared : List Bytes}
    (hphase : s.phase = .trailers) (hmode : s.mode = .unsignedTrailer declared)
    (hwell : ∀ t ∈ trailers, t.WellFormed)
    (havailable : s.available = ChunkedEncoding.trailerWires trailers ++ rest)
    (hlt : s.trailerBytes + (ChunkedEncoding.trailerWires trailers).length < 2 ^ 64)
    (hle : s.trailerBytes + (ChunkedEncoding.trailerWires trailers).length
      ≤ s.limits.maxTrailerBytes)
    (hcount : s.trailers.length + trailers.length ≤ s.limits.maxTrailers)
    (hnames : (s.trailers.map (·.name) ++ trailers.map (·.name)).Nodup)
    (hdeclared : ∀ t ∈ trailers, t.name ∈ declared) :
    ∃ s', decodeLoop K s = decodeLoop K s' ∧ s'.available = rest ∧ s'.mode = s.mode ∧
      s'.limits = s.limits ∧ s'.phase = .trailers ∧ s'.decodedBytes = s.decodedBytes ∧
      s'.hashed = s.hashed ∧ s'.output = s.output ∧
      s'.trailers = s.trailers ++ trailers.map (·.field) ∧
      s'.trailerBytes = s.trailerBytes + (ChunkedEncoding.trailerWires trailers).length := by
  induction trailers generalizing s with
  | nil =>
    refine ⟨s, rfl, havailable, rfl, rfl, hphase, rfl, rfl, rfl, ?_, rfl⟩
    rw [List.map_nil, List.append_nil]
  | cons t trailers ih =>
    have hwires : ChunkedEncoding.trailerWires (t :: trailers)
        = t.text ++ crlf ++ ChunkedEncoding.trailerWires trailers := List.flatMap_cons
    have hlength : (ChunkedEncoding.trailerWires (t :: trailers)).length
        = t.text.length + 2 + (ChunkedEncoding.trailerWires trailers).length := by
      rw [hwires, List.length_append, List.length_append]
      rfl
    rw [hlength] at hlt hle
    rw [List.length_cons] at hcount
    rw [hwires, List.append_assoc] at havailable
    have hnew : t.name ∉ s.trailers.map (·.name) := by
      intro hmem
      rw [List.nodup_append] at hnames
      exact hnames.2.2 _ hmem t.name List.mem_cons_self rfl
    have hround := trailer_round (K := K) hphase hmode (hwell t List.mem_cons_self) havailable
      (by omega) (by omega) (by omega) hnew (hdeclared t List.mem_cons_self)
    obtain ⟨s', hloop, hend, hmode', hlimits', hphase', hdecoded', hhashed', houtput', htrailers',
      hbytes'⟩ := ih (s := { s with
        offset := s.offset + (t.text.length + 2)
        trailerBytes := s.trailerBytes + (t.text.length + 2)
        trailers := s.trailers ++ [t.field] }) hphase hmode
      (fun x hx => hwell x (List.mem_cons_of_mem _ hx))
      ((drop_available s _).trans (line_length havailable).2)
      (by simp only; omega) (by simp only; omega)
      (by simp only [List.length_append, List.length_singleton]; omega)
      (by simpa [TrailerLine.field] using hnames)
      (fun x hx => hdeclared x (List.mem_cons_of_mem _ hx))
    refine ⟨s', (loop_next hround).trans hloop, hend, hmode', hlimits', hphase', hdecoded',
      hhashed', houtput', ?_, ?_⟩
    · rw [htrailers', List.map_cons, List.append_assoc, List.singleton_append]
    · rw [hbytes', hlength]
      simp only
      omega

theorem last_round (hphase : s.phase = .trailers) (havailable : s.available = crlf)
    (hlt : s.trailerBytes + 2 < 2 ^ 64) (hle : s.trailerBytes + 2 ≤ s.limits.maxTrailerBytes)
    (hfinish : finishTrailers K ((s.advance 2).counted []).toAwsChunkedDecoder = .ok ⟨⟩) :
    decodeRound K s = (.ok (some .done), { (s.advance 2).counted [] with phase := .done }) := by
  have havailable' : s.available = [] ++ crlf ++ [] := havailable
  have hhandle : trailerLine K [] (s.advance 2)
      = (.ok true, { (s.advance 2).counted [] with phase := .done }) :=
    trailerLine_ok.mpr ⟨hlt, hle, Or.inl ⟨rfl, rfl, hfinish, rfl⟩⟩
  have hempty : s.input.drop (s.offset + 2) = [] := by
    rw [drop_available, havailable]
    rfl
  have hround : decodeRound K s = trailersPhase K s := by rw [decodeRound_eq, hphase]
  rw [hround, trailersPhase_eq, linePhase_line havailable' (by decide) (Nat.zero_le _), run_bind]
  simp only [List.length_nil, Nat.zero_add, hhandle, endOfBody, if_true, run_bind, run_get,
    run_ite, run_pure]
  change (if s.input.drop (s.offset + 2) ≠ [] then _ else _) = _
  rw [if_neg (not_ne_iff.mpr hempty)]

end Passing

/-- No checksum is declared twice. -/
def AwsChunkedMode.Distinct : AwsChunkedMode → Prop
  | .signed _ => True
  | .unsignedTrailer declared => declared.Nodup

theorem distinct_of_new (h : AwsChunkedDecoder.new mode limits = .ok d) :
    mode.Distinct ∧ d = .initial mode limits := by
  cases mode with
  | signed context =>
    cases h
    exact ⟨trivial, rfl⟩
  | unsignedTrailer declared =>
    cases hvalid : validateDeclarations declared with
    | error e =>
      rw [AwsChunkedDecoder.new, hvalid] at h
      cases h
    | ok u =>
      rw [AwsChunkedDecoder.new, hvalid] at h
      cases h
      refine ⟨?_, rfl⟩
      unfold validateDeclarations at hvalid
      split at hvalid
      · cases hvalid
      · exact checkDeclarations_nodup List.nodup_nil hvalid

variable {e : ChunkedEncoding}

/-- What an encoding says of its trailers is what is checked at the end. -/
theorem ChunkedEncoding.Valid.finish {K : Crates} (h : e.Valid K mode limits)
    (hmode : d.mode = mode) (hlimits : d.limits = limits)
    (hdecoded : d.decodedBytes = e.body.length) (hhashed : d.hashed = e.body)
    (htrailers : d.trailers = e.trailers.map (·.field)) : finishTrailers K d = .ok ⟨⟩ := by
  rw [finishTrailers_ok, hlimits, hdecoded, hmode, htrailers, hhashed]
  refine ⟨h.length, ?_⟩
  have hrest := h.trailers
  cases mode with
  | signed context =>
    rw [show e.trailers = [] from hrest]
    rfl
  | unsignedTrailer declared =>
    obtain ⟨hperm, hsums⟩ := hrest
    intro name hname
    obtain ⟨t, ht, rfl⟩ := List.mem_map.mp (hperm.mem_iff.mpr hname)
    have hsome : ((e.trailers.map (·.field)).find? (·.name = t.name)).isSome := by
      rw [List.find?_isSome]
      exact ⟨t.field, List.mem_map_of_mem ht, by simp [TrailerLine.field]⟩
    obtain ⟨found, hfound⟩ := Option.isSome_iff_exists.mp hsome
    obtain ⟨t', ht', rfl⟩ := List.mem_map.mp (List.mem_of_find?_eq_some hfound)
    have htest := List.find?_some hfound
    have hname' : t'.name = t.name := of_decide_eq_true htest
    have hsum := hsums t' ht'
    rw [hname'] at hsum
    exact ⟨_, hfound, hsum⟩

theorem pass_end {K : Crates} (h : e.Valid K mode limits) (hdeclared : mode.Distinct)
    {s : Decoding} (hmode : s.mode = mode) (hlimits : s.limits = limits)
    (hphase : s.phase = .trailers)
    (havailable : s.available = ChunkedEncoding.trailerWires e.trailers ++ crlf)
    (hdecoded : s.decodedBytes = e.body.length) (hhashed : s.hashed = e.body)
    (htrailers : s.trailers = []) (hbytes : s.trailerBytes = 0) :
    ∃ s', decodeLoop K s = (.ok .done, s') ∧ s'.output = s.output := by
  have hpassed : ∃ s', decodeLoop K s = decodeLoop K s' ∧ s'.available = crlf ∧
      s'.mode = s.mode ∧ s'.limits = s.limits ∧ s'.phase = .trailers ∧
      s'.decodedBytes = s.decodedBytes ∧ s'.hashed = s.hashed ∧ s'.output = s.output ∧
      s'.trailers = e.trailers.map (·.field) ∧
      s'.trailerBytes = (ChunkedEncoding.trailerWires e.trailers).length := by
    have hrest := h.trailers
    cases mode with
    | signed context =>
      have hnone : e.trailers = [] := hrest
      rw [hnone] at havailable ⊢
      exact ⟨s, rfl, havailable, rfl, rfl, hphase, rfl, rfl, rfl, htrailers, hbytes⟩
    | unsignedTrailer declared =>
      have hnames : (s.trailers.map (·.name) ++ e.trailers.map (·.name)).Nodup := by
        rw [htrailers]
        exact hrest.1.nodup_iff.mpr hdeclared
      have hlt := h.bytes_lt
      have hle := h.bytes_le
      have hcount := h.count_le
      have hpassed := pass_trailers (K := K) hphase hmode h.wellFormed havailable
        (by rw [hbytes]; omega) (by rw [hbytes, hlimits]; omega)
        (by rw [htrailers, hlimits, List.length_nil]; omega) hnames
        (fun t ht => hrest.1.mem_iff.mp (List.mem_map_of_mem ht))
      rw [htrailers, hbytes, Nat.zero_add, List.nil_append] at hpassed
      exact hpassed
  obtain ⟨s', hloop, hend, hmode', hlimits', hphase', hdecoded', hhashed', houtput', htrailers',
    hbytes'⟩ := hpassed
  have hlast := last_round (K := K) hphase' hend (by rw [hbytes']; exact h.bytes_lt)
    (by rw [hbytes', hlimits', hlimits]; exact h.bytes_le)
    (h.finish (hmode'.trans hmode) (hlimits'.trans hlimits) (hdecoded'.trans hdecoded)
      (hhashed'.trans hhashed) htrailers')
  exact ⟨_, hloop.trans (loop_return hlast), houtput'⟩

/-- **Complete.**  A valid encoding that is pushed in one call is decoded. -/
theorem push_encoding {K : Crates} (h : e.Valid K mode limits) (hdeclared : mode.Distinct) :
    ∃ s, push K e.wire ⟨.initial mode limits, []⟩ = (.ok .done, s) ∧ s.output = e.body := by
  have hpush : push K e.wire ⟨.initial mode limits, []⟩
      = decodeLoop K ((⟨.initial mode limits, []⟩ : Decoding).extend e.wire) := rfl
  have havailable : ((⟨.initial mode limits, []⟩ : Decoding).extend e.wire).available
      = chunkWires e.chunks ++ (e.final.header ++ crlf ++
        (ChunkedEncoding.trailerWires e.trailers ++ crlf)) := by
    change [] ++ e.wire = _
    rw [List.nil_append, ChunkedEncoding.wire]
    simp only [List.append_assoc]
  obtain ⟨s, hloop, hnext, hbehind⟩ := pass_chunks rfl havailable h.chunks
  have hfits : e.final.Fits K s.mode s.limits s.decodedBytes s.previousSignature := by
    have hdecoded : s.decodedBytes = e.body.length := hbehind.decoded.trans (Nat.zero_add _)
    rw [hbehind.mode, hbehind.limits, hdecoded, hbehind.previous]
    exact h.final
  have hround := final_round hbehind.phase hnext hfits h.final_empty
  obtain ⟨s', hend, houtput⟩ := pass_end h hdeclared (s := { s.advance (e.final.header.length + 2) with
      previousSignature := e.final.own.or s.previousSignature
      phase := .trailers }) hbehind.mode hbehind.limits rfl
    ((drop_available s _).trans (line_length hnext).2)
    (hbehind.decoded.trans (Nat.zero_add _)) hbehind.hashed hbehind.trailers hbehind.trailerBytes
  refine ⟨s', ?_, houtput.trans hbehind.output⟩
  rw [hpush, hloop]
  exact (loop_next hround).trans hend

end Pgs3.Protocol
