import Pgs3.Schema

/-!
# Bytes on the wire

The byte-string helpers that the protocol modules of the worker (`protocol/chunked.rs`,
`protocol/sigv4.rs`, `protocol/http.rs`) share, and the functions of the hash and encoding
crates they call.  A Rust `String` or `&[u8]` of the protocol layer is its bytes.
-/

namespace Pgs3.Protocol

open Pgs3

/-! ## 1. Literals and character classes -/

def ascii (text : String) : Bytes := text.toList.map fun c => UInt8.ofNat c.toNat

def crlf : Bytes := [13, 10]

def isAsciiDigit (b : UInt8) : Bool := 48 ≤ b && b ≤ 57

def isAsciiLowercase (b : UInt8) : Bool := 97 ≤ b && b ≤ 122

def isAsciiUppercase (b : UInt8) : Bool := 65 ≤ b && b ≤ 90

def isAsciiAlphanumeric (b : UInt8) : Bool :=
  isAsciiDigit b || isAsciiLowercase b || isAsciiUppercase b

def isAsciiHexdigit (b : UInt8) : Bool :=
  isAsciiDigit b || (97 ≤ b && b ≤ 102) || (65 ≤ b && b ≤ 70)

/-- `u8::is_ascii_graphic`: `!` to `~`. -/
def isAsciiGraphic (b : UInt8) : Bool := 33 ≤ b && b ≤ 126

/-- A decidable property of bytes is checked on the 256 of them. -/
theorem forall_byte {p : UInt8 → Bool} (h : ∀ n : Fin 256, p (UInt8.ofFin n) = true)
    (b : UInt8) : p b = true := by
  have hb := h b.toFin
  rwa [UInt8.ofFin_toFin] at hb

/-! ## 2. Slices -/

/-- `split_once`: the parts before and after the first `delimiter`. -/
def splitOnce (delimiter : UInt8) : Bytes → Option (Bytes × Bytes)
  | [] => none
  | b :: rest =>
      if b = delimiter then some ([], rest)
      else (splitOnce delimiter rest).map fun parts => (b :: parts.1, parts.2)

def isOws (b : UInt8) : Bool := b = 32 || b = 9

def trimOws (value : Bytes) : Bytes :=
  ((value.dropWhile isOws).reverse.dropWhile isOws).reverse

/-- `windows(2).position(|window| window == b"\r\n")`. -/
def crlfPosition : Bytes → Option Nat
  | a :: b :: rest =>
      if a = 13 ∧ b = 10 then some 0 else (crlfPosition (b :: rest)).map (· + 1)
  | _ => none

variable {delimiter : UInt8} {value : Bytes}

theorem splitOnce_eq {left right : Bytes} (h : splitOnce delimiter value = some (left, right)) :
    value = left ++ delimiter :: right ∧ delimiter ∉ left := by
  induction value generalizing left with
  | nil => cases h
  | cons b rest ih =>
    simp only [splitOnce] at h
    split at h
    · rename_i hb
      cases h
      exact ⟨by rw [hb]; rfl, by simp⟩
    · rename_i hb
      simp only [Option.map_eq_some_iff] at h
      obtain ⟨⟨l, r⟩, hparts, heq⟩ := h
      cases heq
      obtain ⟨hrest, hfree⟩ := ih hparts
      exact ⟨by rw [hrest]; rfl, by simp only [List.mem_cons, not_or]; exact ⟨Ne.symm hb, hfree⟩⟩

theorem splitOnce_append {left right : Bytes} (h : delimiter ∉ left) :
    splitOnce delimiter (left ++ delimiter :: right) = some (left, right) := by
  induction left with
  | nil => simp [splitOnce]
  | cons b left ih =>
    simp only [List.mem_cons, not_or] at h
    simp [splitOnce, Ne.symm h.1, ih h.2]

theorem splitOnce_eq_none_iff : splitOnce delimiter value = none ↔ delimiter ∉ value := by
  induction value with
  | nil => simp [splitOnce]
  | cons b value ih =>
    by_cases hb : b = delimiter
    · simp [splitOnce, hb]
    · simp [splitOnce, hb, Ne.symm hb, ih]

theorem crlfPosition_eq {position : Nat} (h : crlfPosition value = some position) :
    value = value.take position ++ crlf ++ value.drop (position + 2)
      ∧ position + 2 ≤ value.length := by
  induction value generalizing position with
  | nil => cases h
  | cons a rest ih =>
    cases rest with
    | nil => cases h
    | cons b rest =>
      simp only [crlfPosition] at h
      split at h
      · rename_i hab
        cases h
        simp [hab.1, hab.2, crlf]
      · simp only [Option.map_eq_some_iff] at h
        obtain ⟨p, hp, rfl⟩ := h
        obtain ⟨heq, hle⟩ := ih hp
        constructor
        · rw [List.take_succ_cons, List.drop_succ_cons, List.cons_append, List.cons_append,
            ← heq]
        · simpa using hle

theorem crlf_not_infix_take {position : Nat} (h : crlfPosition value = some position) :
    ¬ crlf <:+: value.take position := by
  induction value generalizing position with
  | nil => cases h
  | cons a rest ih =>
    cases rest with
    | nil => cases h
    | cons b rest =>
      simp only [crlfPosition] at h
      split at h
      · cases h
        rw [List.take_zero, List.infix_nil]
        exact List.cons_ne_nil _ _
      · rename_i hab
        simp only [Option.map_eq_some_iff] at h
        obtain ⟨p, hp, rfl⟩ := h
        rw [List.take_succ_cons, List.infix_cons_iff]
        rintro (hpre | hin)
        · apply hab
          rw [crlf, List.cons_prefix_cons] at hpre
          cases p with
          | zero => simp at hpre
          | succ p =>
            rw [List.take_succ_cons, List.cons_prefix_cons] at hpre
            exact ⟨hpre.1.symm, hpre.2.1.symm⟩
        · exact ih hp hin

/-! ## 3. Hexadecimal text -/

/-- A `[u8; 32]`. -/
abbrev Digest32 := { bytes : Bytes // bytes.length = 32 }

def hexDigits : Bytes := ascii "0123456789abcdef"

def hexLower (value : Bytes) : Bytes :=
  value.flatMap fun byte =>
    [hexDigits.getD (byte.toNat / 16) 0, hexDigits.getD (byte.toNat % 16) 0]

def hexNibble (byte : UInt8) : Option UInt8 :=
  if isAsciiDigit byte then some (byte - 48)
  else if 97 ≤ byte && byte ≤ 102 then some (byte - 97 + 10)
  else if 65 ≤ byte && byte ≤ 70 then some (byte - 65 + 10)
  else none

/-- The loop of `decode_hex_32` over the pairs of digits. -/
def decodePairs : Bytes → Option Bytes
  | high :: low :: rest => do
      let high ← hexNibble high
      let low ← hexNibble low
      return (high <<< 4 ||| low) :: (← decodePairs rest)
  | _ => some []

theorem decodePairs_length : ∀ {value out : Bytes}, decodePairs value = some out →
    out.length = value.length / 2
  | [], out, h => by cases h; rfl
  | [_], out, h => by cases h; simp
  | high :: low :: rest, out, h => by
      simp only [decodePairs, bind, pure, Option.bind_eq_some_iff] at h
      obtain ⟨_, _, _, _, tail, htail, heq⟩ := h
      cases heq
      have := decodePairs_length htail
      simp only [List.length_cons]
      omega

theorem hexLower_digits (b : UInt8) :
    (hexNibble (hexDigits.getD (b.toNat / 16) 0)).bind (fun high =>
      (hexNibble (hexDigits.getD (b.toNat % 16) 0)).map fun low => high <<< 4 ||| low) = some b := by
  apply of_decide_eq_true
  revert b
  exact forall_byte (by decide +kernel)

theorem decodePairs_hexLower (value : Bytes) : decodePairs (hexLower value) = some value := by
  induction value with
  | nil => rfl
  | cons b value ih =>
    have hb := hexLower_digits b
    simp only [Option.bind_eq_some_iff, Option.map_eq_some_iff] at hb
    rcases hb with ⟨high, hhigh, low, hlow, hbyte⟩
    rw [hexLower, List.flatMap_cons, List.cons_append, List.cons_append, List.nil_append,
      decodePairs, ← hexLower, hhigh, hlow, ih, ← hbyte]
    rfl

theorem hexLower_injective : Function.Injective hexLower := by
  intro v w h
  have hv := decodePairs_hexLower v
  rw [h, decodePairs_hexLower] at hv
  exact (Option.some.inj hv).symm

def decodeHex32 (value : Bytes) : Option Digest32 :=
  if hlen : value.length = 64 then
    match hpairs : decodePairs value with
    | some out => some ⟨out, by rw [decodePairs_length hpairs, hlen]⟩
    | none => none
  else none

/-! ## 4. The crates -/

/-- The functions of the hash and encoding crates.  Nothing is assumed of them beyond the
    lengths; where a property needs a digest to have no collisions it says so. -/
structure Crates extends Digests where
  sha1 : Bytes → Bytes
  crc32 : Bytes → Bytes
  crc32c : Bytes → Bytes
  crc64nvme : Bytes → Bytes
  hmacSha256 : Bytes → Bytes → Digest32
  base64Decode : Bytes → Option Bytes

theorem truncated_length (b : Bytes) : (truncated 32 b).length = 32 :=
  Digests.sample.sha256_length b

/-- A concrete instance to evaluate the model with. -/
def Crates.sample : Crates where
  toDigests := Digests.sample
  sha1 := truncated 20
  crc32 := truncated 4
  crc32c := truncated 4
  crc64nvme := truncated 8
  hmacSha256 := fun key value => ⟨truncated 32 (key ++ value), truncated_length _⟩
  base64Decode := some

/-- The digest with this hexadecimal text. -/
def digestOf (text : String) : Digest32 :=
  (decodeHex32 (ascii text)).getD ⟨List.replicate 32 0, rfl⟩

/-- The crates with recorded values, where there are some. -/
def Crates.recording (hashes : List (Bytes × Digest32)) (tags : List ((Bytes × Bytes) × Digest32)) :
    Crates :=
  { Crates.sample with
    sha256 := fun text => ((hashes.lookup text).getD ⟨truncated 32 text, truncated_length text⟩).1
    sha256_length := fun text =>
      ((hashes.lookup text).getD ⟨truncated 32 text, truncated_length text⟩).2
    hmacSha256 := fun key text =>
      (tags.lookup (key, text)).getD (Crates.sample.hmacSha256 key text) }

/-- `verify_hmac`: whether the tag is the one of `value` under `key`. -/
def verifyHmac (K : Crates) (key value : Bytes) (signature : Digest32) : Bool :=
  K.hmacSha256 key value = signature

end Pgs3.Protocol
