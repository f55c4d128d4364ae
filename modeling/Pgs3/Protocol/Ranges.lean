import Pgs3.Readable
import Pgs3.Protocol.EntityTags
import Pgs3.Protocol.SigV4

/-!
# Range requests

Translation of `ByteRangeSpec` of `protocol/headers.rs`.  A `Range` header asks for positions
of an object (`Asks`); the service resolves it to an interval that `_read_blob_range` reads.
-/

namespace Pgs3.Protocol

open Foundation Foundation.Extents

/-! ## 1. Definitions -/

inductive RangeError where
  | unsupportedUnit
  | multipleRangesUnsupported
  | invalidSyntax
  | invalidNumber
  | unsatisfiable

inductive ByteRangeSpec where
  | inclusive (first last : Nat)
  | «from» (first : Nat)
  | suffix (length : Nat)

structure ResolvedRange where
  start : Nat
  «end» : Nat

/-- A turn of the loop of `parse_u64`. -/
def pushDigit (number : Nat) (byte : UInt8) : Except RangeError Nat := do
  let number := number * 10 + (byte.toNat - 48)
  ensure (number < 2 ^ 64) .invalidNumber
  return number

def parseU64 (value : Bytes) : Except RangeError Nat := do
  ensure (value ≠ [] ∧ value.all isAsciiDigit) .invalidNumber
  value.foldlM pushDigit 0

def ByteRangeSpec.parse (value : Bytes) : Except RangeError ByteRangeSpec := do
  let parts ← okOr .invalidSyntax (splitOnce 61 (trimAscii value))
  ensure (eqIgnoreAsciiCase parts.1 (ascii "bytes")) .unsupportedUnit
  ensure (44 ∉ parts.2) .multipleRangesUnsupported
  let (first, last) ← okOr .invalidSyntax (splitOnce 45 parts.2)
  if first = [] then do
    let length ← parseU64 last
    ensure (length ≠ 0) .unsatisfiable
    return .suffix length
  else do
    let first ← parseU64 first
    if last = [] then return .from first
    else do
      let last ← parseU64 last
      ensure (first ≤ last) .unsatisfiable
      return .inclusive first last

def ByteRangeSpec.resolve (range : ByteRangeSpec) (objectSize : Nat) :
    Except RangeError ResolvedRange :=
  if objectSize = 0 then .error .unsatisfiable
  else
    match range with
    | .inclusive first last =>
        if objectSize ≤ first then .error .unsatisfiable
        else .ok ⟨first, min last (objectSize - 1)⟩
    | .from first =>
        if objectSize ≤ first then .error .unsatisfiable else .ok ⟨first, objectSize - 1⟩
    | .suffix length => .ok ⟨objectSize - length, objectSize - 1⟩

/-! ## 2. What a header asks for -/

/-- The positions of an object that `first-last` names: those between the two numbers, or all
    from the first on, or, without a first number, as many as the second one at the end. -/
def Asks (first last : Bytes) (size i : Nat) : Prop :=
  i < size ∧ if first = [] then size ≤ i + decimal last
    else decimal first ≤ i ∧ (last = [] ∨ i ≤ decimal last)

def ByteRangeSpec.Spelled (first last : Bytes) : ByteRangeSpec → Prop
  | .inclusive a z => first ≠ [] ∧ last ≠ [] ∧ a = decimal first ∧ z = decimal last ∧ a ≤ z
  | .from a => first ≠ [] ∧ last = [] ∧ a = decimal first
  | .suffix n => first = [] ∧ n = decimal last ∧ n ≠ 0

variable {value first last : Bytes} {range : ByteRangeSpec}

theorem parseU64_eq_ok {n : Nat} (h : parseU64 value = .ok n) : n = decimal value := by
  simp only [parseU64, bind_eq_ok] at h
  rcases h with ⟨_, -, h⟩
  unfold decimal
  generalize 0 = start at h ⊢
  induction value generalizing start with
  | nil => exact (pure_eq_ok.mp h).symm
  | cons byte value ih =>
    simp only [List.foldlM_cons, pushDigit, bind_eq_ok, pure_eq_ok] at h
    rcases h with ⟨_, ⟨_, _, rfl⟩, hrest⟩
    exact ih _ hrest

theorem parse_spelled (h : ByteRangeSpec.parse value = .ok range) : ∃ unit first last,
      trimAscii value = unit ++ 61 :: (first ++ 45 :: last) ∧
      eqIgnoreAsciiCase unit (ascii "bytes") = true ∧ range.Spelled first last := by
  simp only [ByteRangeSpec.parse, bind_eq_ok, okOr_eq_ok, ensure_eq_ok] at h
  rcases h with ⟨⟨unit, text⟩, hunit, _, hbytes, _, _, ⟨first, last⟩, hdash, h⟩
  refine ⟨unit, first, last, ?_, hbytes, ?_⟩
  · rw [(splitOnce_eq hunit).1, show text = _ from (splitOnce_eq hdash).1]
  · split_ifs at h with hfirst hlast
    · simp only [bind_eq_ok, ensure_eq_ok, pure_eq_ok] at h
      rcases h with ⟨length, hlength, _, hne, rfl⟩
      exact ⟨hfirst, parseU64_eq_ok hlength, hne⟩
    · simp only [bind_eq_ok, pure_eq_ok] at h
      rcases h with ⟨a, ha, rfl⟩
      exact ⟨hfirst, hlast, parseU64_eq_ok ha⟩
    · simp only [bind_eq_ok, ensure_eq_ok, pure_eq_ok] at h
      rcases h with ⟨a, ha, z, hz, _, hle, rfl⟩
      exact ⟨hfirst, hlast, parseU64_eq_ok ha, parseU64_eq_ok hz, hle⟩

theorem resolve_asks (size : Nat) (h : range.Spelled first last) :
    (range.resolve size = .error .unsatisfiable ∧ ∀ i, ¬ Asks first last size i) ∨
    ∃ r, range.resolve size = .ok r ∧ r.start ≤ r.end ∧ r.end < size ∧
      ∀ i, Asks first last size i ↔ r.start ≤ i ∧ i ≤ r.end := by
  unfold ByteRangeSpec.resolve
  by_cases hsize : size = 0
  · left
    simp [hsize, Asks]
  · rw [if_neg hsize]
    cases range with
    | inclusive a z =>
      rcases h with ⟨hfirst, hlast, rfl, rfl, hle⟩
      simp only [Asks, if_neg hfirst, hlast, false_or]
      split_ifs with hout
      · exact Or.inl ⟨rfl, fun i => by omega⟩
      · refine Or.inr ⟨_, rfl, ?_, ?_, fun i => ?_⟩ <;> simp only <;> omega
    | «from» a =>
      rcases h with ⟨hfirst, hlast, rfl⟩
      simp only [Asks, if_neg hfirst, hlast, true_or, and_true]
      split_ifs with hout
      · exact Or.inl ⟨rfl, fun i => by omega⟩
      · refine Or.inr ⟨_, rfl, ?_, ?_, fun i => ?_⟩ <;> simp only <;> omega
    | suffix n =>
      rcases h with ⟨hfirst, rfl, hne⟩
      simp only [Asks, if_pos hfirst]
      refine Or.inr ⟨_, rfl, ?_, ?_, fun i => ?_⟩ <;> simp only <;> omega

/-! ## 3. What is read -/

/-- **Range requests.**  After any calls of honest workers a blob that the readers can follow
    has a content with its digest.  A header that parses is unsatisfiable if it asks for no
    position, and else resolves to the positions it asks for, and those are read. -/
theorem range_request_reads {H : Digests} {s : Db} (h : Run H (fun _ op _ => Truthful H op) s)
    (hno : NoCollision H s.hashed) {b : BlobRow} (hb : b ∈ s.blob.rows)
    (hdepth : Within s.node 65 b.sha256) (hsize : b.size ≤ maxBytea)
    (hparse : ByteRangeSpec.parse value = .ok range) :
    ∃ content unit first last, H.sha256 content = b.sha256 ∧ content.length = b.size ∧
      readBlob s b.sha256 = .ok content ∧ trimAscii value = unit ++ 61 :: (first ++ 45 :: last) ∧
      eqIgnoreAsciiCase unit (ascii "bytes") = true ∧
      ((range.resolve b.size = .error .unsatisfiable ∧ ∀ i, ¬ Asks first last b.size i) ∨
        ∃ r, range.resolve b.size = .ok r ∧
          (∀ i, Asks first last b.size i ↔ r.start ≤ i ∧ i ≤ r.end) ∧
          readBlobRange s b.sha256 r.start (some r.end)
            = .ok (slice content r.start (r.end + 1 - r.start))) := by
  have hinv := h.contentInv hno
  rcases hinv.holds hb with ⟨content, hholds, hlength, hdigest, _⟩
  rcases parse_spelled hparse with ⟨unit, first, last, htext, hunit, hspelled⟩
  rw [← hlength] at hsize
  refine ⟨content, unit, first, last, hdigest, hlength,
    readBlobAt_ok hinv hdepth hholds hsize, htext, hunit, ?_⟩
  rcases resolve_asks b.size hspelled with hnone | ⟨r, hr, hle, hlt, hasks⟩
  · exact Or.inl hnone
  · right
    refine ⟨r, hr, hasks, ?_⟩
    have hend : min ((some (r.end : Int)).getD ((content.length : Int) - 1))
        ((content.length : Int) - 1) = r.end := by
      simp only [Option.getD_some]
      omega
    rw [← window_zero]
    exact readBlobRangeAt_ok hinv hdepth hholds hsize hle (by omega) hend

/-- The last byte of a stored chunk of two. -/
theorem range_request_reads_suffix : ∃ (s : Db) (b : BlobRow) (content : Bytes),
    b ∈ s.blob.rows ∧ Digests.sample.sha256 content = b.sha256 ∧
      readBlobRange s b.sha256 1 (some 1) = .ok (slice content 1 1) := by
  obtain ⟨s, hrun, hno, b, hb, hsize, hst⟩ : ∃ s : Db,
      Run .sample (fun _ op _ => Truthful .sample op) s ∧ NoCollision .sample s.hashed ∧
        ∃ b ∈ s.blob.rows, b.size = 2 ∧ b.storage = .chunked := by
    refine ⟨execs .sample sealedUpload .empty, ?_, ?_, by decide +kernel⟩
    · exact Run.empty.execs fun p hp _ => sealedUpload_truthful p hp
    · unfold NoCollision
      decide +kernel
  have hnode := within_leaf (node_chunked (Table.lookup_of_mem hb) hst) 64
  have hparse : ByteRangeSpec.parse (ascii "bytes=-1") = .ok (.suffix 1) := by rfl
  rcases range_request_reads hrun hno hb hnode (by rw [hsize]; decide) hparse with
    ⟨content, _, _, _, hdigest, _, _, _, _, ⟨hnone, _⟩ | ⟨r, hr, _, hread⟩⟩
  · rw [hsize] at hnone
    cases hnone
  · rw [hsize] at hr
    cases hr
    exact ⟨s, b, content, hb, hdigest, hread⟩

end Pgs3.Protocol
