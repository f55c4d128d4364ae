import Pgs3.Protocol.Ascii

/-!
# Percent escapes

`percent_decode` of `protocol/http.rs` and the path loop of `canonical_uri` in
`protocol/sigv4.rs` are one scan: an escape is a `%` with two hexadecimal digits, everything
else is a plain byte, and a `%` without its digits is an error.  They differ in what they
write for a plain byte and for an escape.  `aws_encode` goes the other way.
-/

namespace Pgs3.Protocol

open Pgs3

/-! ## 1. The scan -/

/-- What `plain` and `escape` write for each plain byte and each escape, or `none` at a `%`
    that two hexadecimal digits do not follow. -/
def scanEscapes (plain : UInt8 → Bytes) (escape : UInt8 → UInt8 → Bytes) :
    Bytes → Option Bytes
  | [] => some []
  | byte :: rest =>
      if byte = 37 then
        match rest with
        | high :: low :: rest =>
            if (hexNibble high).isSome && (hexNibble low).isSome then
              (scanEscapes plain escape rest).map (escape high low ++ ·)
            else none
        | _ => none
      else (scanEscapes plain escape rest).map (plain byte ++ ·)

section Scan

variable (plain : UInt8 → Bytes) (escape : UInt8 → UInt8 → Bytes)

theorem scanEscapes_plain {byte : UInt8} (h : byte ≠ 37) (rest : Bytes) :
    scanEscapes plain escape (byte :: rest)
      = (scanEscapes plain escape rest).map (plain byte ++ ·) := by
  rw [scanEscapes.eq_def]
  exact if_neg h

theorem scanEscapes_escape {high low : UInt8} (hhigh : (hexNibble high).isSome)
    (hlow : (hexNibble low).isSome) (rest : Bytes) :
    scanEscapes plain escape (37 :: high :: low :: rest)
      = (scanEscapes plain escape rest).map (escape high low ++ ·) := by
  simp [scanEscapes, hhigh, hlow]

/-- **A byte that is neither `%` nor a digit cuts the scan in two.** -/
theorem scanEscapes_append_cons {byte : UInt8} (h : byte ≠ 37) (hhex : hexNibble byte = none)
    (left right : Bytes) : scanEscapes plain escape (left ++ byte :: right)
      = (scanEscapes plain escape left).bind fun l =>
          (scanEscapes plain escape right).map fun r => l ++ plain byte ++ r := by
  fun_induction scanEscapes plain escape left with
  | case1 =>
    simp [scanEscapes_plain _ _ h]
  | case2 high low rest hdigits ih =>
    obtain ⟨hhigh, hlow⟩ := (Bool.and_eq_true _ _).mp hdigits
    rw [List.cons_append, List.cons_append, List.cons_append,
      scanEscapes_escape _ _ hhigh hlow, ih]
    cases scanEscapes plain escape rest <;> cases scanEscapes plain escape right <;> simp
  | case3 high low rest hdigits =>
    simp only [List.cons_append, scanEscapes, if_true, hdigits]
    rfl
  | case4 rest hshort =>
    -- Fewer than two bytes follow the `%`, so `byte` would have to be a digit.
    match rest, hshort with
    | [], _ =>
      cases right with
      | nil => simp [scanEscapes]
      | cons c right => simp [scanEscapes, hhex]
    | [c], _ => simp [scanEscapes, hhex]
    | high :: low :: rest, hshort => exact absurd rfl (hshort high low rest)
  | case5 b rest hb ih =>
    rw [List.cons_append, scanEscapes_plain _ _ hb, ih]
    cases scanEscapes plain escape rest <;> cases scanEscapes plain escape right <;> simp

end Scan

/-! ## 2. Decoding -/

/-- The byte an escape stands for. -/
def escapedByte (high low : UInt8) : UInt8 :=
  ((hexNibble high).getD 0 <<< 4) ||| (hexNibble low).getD 0

/-- `percent_decode`; `none` is `InvalidPercentEncoding`. -/
def percentDecode (input : Bytes) : Option Bytes :=
  scanEscapes (fun byte => [byte]) (fun high low => [escapedByte high low]) input

/-! ## 3. Encoding -/

def isUnreserved (byte : UInt8) : Bool :=
  isAsciiAlphanumeric byte || byte = 45 || byte = 46 || byte = 95 || byte = 126

def upperHexDigits : Bytes := ascii "0123456789ABCDEF"

def percentEncoded (byte : UInt8) : Bytes :=
  [37, upperHexDigits.getD (byte.toNat / 16) 0, upperHexDigits.getD (byte.toNat % 16) 0]

def awsEncode (value : Bytes) (encodeSlash : Bool) : Bytes :=
  value.flatMap fun byte =>
    if isUnreserved byte || (byte = 47 && !encodeSlash) then [byte] else percentEncoded byte

def toAsciiUppercase (byte : UInt8) : UInt8 :=
  if isAsciiLowercase byte then byte - 32 else byte

def toAsciiLowercase (byte : UInt8) : UInt8 :=
  if isAsciiUppercase byte then byte + 32 else byte

/-! ## 4. Decoding inverts encoding -/

theorem percentEncoded_digits (byte : UInt8) :
    ((hexNibble (upperHexDigits.getD (byte.toNat / 16) 0)).isSome
      && (hexNibble (upperHexDigits.getD (byte.toNat % 16) 0)).isSome
      && escapedByte (upperHexDigits.getD (byte.toNat / 16) 0)
          (upperHexDigits.getD (byte.toNat % 16) 0) = byte
      && (percentEncoded byte).all fun b => isUnreserved b || b = 37) = true := by
  revert byte
  exact forall_byte (by decide +kernel)

theorem percentDecode_cons {byte : UInt8} (h : byte ≠ 37) (rest : Bytes) :
    percentDecode (byte :: rest) = (percentDecode rest).map (byte :: ·) :=
  scanEscapes_plain _ _ h rest

theorem percentDecode_percentEncoded (byte : UInt8) (rest : Bytes) :
    percentDecode (percentEncoded byte ++ rest) = (percentDecode rest).map (byte :: ·) := by
  have hdigits := percentEncoded_digits byte
  simp only [Bool.and_eq_true, decide_eq_true_eq] at hdigits
  rcases hdigits with ⟨⟨⟨hhigh, hlow⟩, hbyte⟩, _⟩
  rw [percentDecode, percentEncoded, List.cons_append, List.cons_append, List.cons_append,
    List.nil_append, scanEscapes_escape _ _ hhigh hlow, hbyte]
  rfl

theorem isUnreserved_ne {byte : UInt8} (h : isUnreserved byte = true) : byte ≠ 37 := by
  rintro rfl
  exact absurd h (by decide)

/-- **`percent_decode` reads back what `aws_encode` wrote.** -/
theorem percentDecode_awsEncode (value : Bytes) (encodeSlash : Bool) :
    percentDecode (awsEncode value encodeSlash) = some value := by
  induction value with
  | nil => rfl
  | cons byte value ih =>
    rw [awsEncode, List.flatMap_cons]
    split
    · rename_i hplain
      have hne : byte ≠ 37 := by
        rcases (Bool.or_eq_true _ _).mp hplain with h | h
        · exact isUnreserved_ne h
        · simp only [Bool.and_eq_true, decide_eq_true_eq] at h
          rw [h.1]
          decide
      rw [List.singleton_append, percentDecode_cons hne, ← awsEncode, ih]
      rfl
    · rw [percentDecode_percentEncoded, ← awsEncode, ih]
      rfl

theorem awsEncode_injective (encodeSlash : Bool) :
    Function.Injective fun value => awsEncode value encodeSlash := by
  intro v w h
  have hdecode := percentDecode_awsEncode v encodeSlash
  rw [show awsEncode v encodeSlash = awsEncode w encodeSlash from h,
    percentDecode_awsEncode] at hdecode
  exact (Option.some.inj hdecode).symm

theorem mem_awsEncode {value : Bytes} {b : UInt8} (h : b ∈ awsEncode value true) :
    isUnreserved b = true ∨ b = 37 := by
  simp only [awsEncode, List.mem_flatMap, Bool.not_true, Bool.and_false, Bool.or_false] at h
  rcases h with ⟨byte, _, hb⟩
  split at hb
  · rename_i hplain
    rw [List.mem_singleton.mp hb]
    exact .inl hplain
  · have hdigits := percentEncoded_digits byte
    simp only [Bool.and_eq_true, List.all_eq_true, Bool.or_eq_true, decide_eq_true_eq]
      at hdigits
    exact hdigits.2 b hb

theorem not_mem_awsEncode {value : Bytes} {b : UInt8} (hplain : isUnreserved b = false)
    (hne : b ≠ 37) : b ∉ awsEncode value true := by
  intro h
  rcases mem_awsEncode h with hb | hb
  · rw [hplain] at hb
    cases hb
  · exact hne hb

/-! ## 5. Cutting encoded text -/

/-- `percent_decode` on both sides of a byte that no escape contains. -/
theorem percentDecode_append_cons {byte : UInt8} (h : byte ≠ 37) (hhex : hexNibble byte = none)
    (left right : Bytes) : percentDecode (left ++ byte :: right)
      = (percentDecode left).bind fun l => (percentDecode right).map fun r => l ++ byte :: r := by
  rw [percentDecode, scanEscapes_append_cons _ _ h hhex]
  simp [percentDecode]

theorem percentDecode_split {byte : UInt8} (h : byte ≠ 37) (hhex : hexNibble byte = none)
    {left right decoded : Bytes} (hok : percentDecode (left ++ byte :: right) = some decoded) :
    ∃ l r, percentDecode left = some l ∧ percentDecode right = some r
      ∧ decoded = l ++ byte :: r := by
  rw [percentDecode_append_cons h hhex] at hok
  simp only [Option.bind_eq_some_iff, Option.map_eq_some_iff] at hok
  rcases hok with ⟨l, hl, r, hr, rfl⟩
  exact ⟨l, r, hl, hr, rfl⟩

theorem mem_percentDecode {byte : UInt8} (h : byte ≠ 37) (hhex : hexNibble byte = none)
    {raw decoded : Bytes} (hok : percentDecode raw = some decoded) (hmem : byte ∈ raw) :
    byte ∈ decoded := by
  rcases List.append_of_mem hmem with ⟨left, right, rfl⟩
  rcases percentDecode_split h hhex hok with ⟨l, r, _, _, rfl⟩
  simp

end Pgs3.Protocol
