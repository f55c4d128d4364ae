import Pgs3.Workers.HttpChunked

/-!
# Bodies in chunked transfer coding

A body is written as a list of chunks, each behind a line with its size and extensions, a line
with the size zero, trailer fields and an empty line.  The decoder reads every body that keeps
to the limits, whatever stands behind it.
-/

namespace Pgs3.Workers

open Pgs3 Pgs3.Protocol Foundation

/-! ## 1. Lines -/

/-- No byte of a line end. -/
def Unbroken (line : Bytes) : Prop := ∀ b ∈ line, b ≠ 10 ∧ b ≠ 13

theorem Unbroken.append {a b : Bytes} (ha : Unbroken a) (hb : Unbroken b) : Unbroken (a ++ b) := by
  intro x hx
  rcases List.mem_append.mp hx with hx | hx
  · exact ha x hx
  · exact hb x hx

theorem Unbroken.cons {a : UInt8} {b : Bytes} (ha : a ≠ 10 ∧ a ≠ 13) (hb : Unbroken b) :
    Unbroken (a :: b) := by
  intro x hx
  rcases List.mem_cons.mp hx with rfl | hx
  · exact ha
  · exact hb x hx

theorem unbroken_nil : Unbroken [] := by
  intro _ hx
  cases hx

variable {bytes : Bytes}

theorem unbroken_of_all {p : UInt8 → Bool} (h : bytes.all p = true)
    (hp : ∀ b, p b = true → b ≠ 10 ∧ b ≠ 13) : Unbroken bytes :=
  fun b hb => hp b (List.all_eq_true.mp h b hb)

theorem unbroken_ows (h : bytes.all isOws = true) : Unbroken bytes :=
  unbroken_of_all h fun _ hb => (ows_byte hb).2

theorem unbroken_token (h : bytes.all isTchar = true) : Unbroken bytes :=
  unbroken_of_all h fun _ hb => (tchar_byte hb).2.2.2.2.2

theorem ExtensionValue.WellFormed.unbroken {value : ExtensionValue} (h : value.WellFormed) :
    Unbroken value.text := by
  cases value with
  | token bytes => exact unbroken_token h.2
  | quoted bytes =>
    have hquote : (34 : UInt8) ≠ 10 ∧ (34 : UInt8) ≠ 13 := by decide
    refine .cons hquote (.append ?_ (.cons hquote unbroken_nil))
    intro x hx
    obtain ⟨b, hb, hx⟩ := List.mem_flatMap.mp hx
    have hallowed := h b hb
    cases b with
    | plain byte =>
      have hall : ∀ b, decide (isQuotedText b = true → b ≠ 10 ∧ b ≠ 13) = true :=
        forall_byte (by decide +kernel)
      rw [List.mem_singleton.mp hx]
      exact of_decide_eq_true (hall byte) hallowed
    | escaped byte =>
      have hall : ∀ b, decide (isEscapable b = true → b ≠ 10 ∧ b ≠ 13) = true :=
        forall_byte (by decide +kernel)
      rcases List.mem_cons.mp hx with rfl | hx
      · decide
      · rw [List.mem_singleton.mp hx]
        exact of_decide_eq_true (hall byte) hallowed

theorem ChunkExtension.WellFormed.unbroken {e : ChunkExtension} (h : e.WellFormed) :
    Unbroken e.text := by
  refine .cons (by decide) (.append (unbroken_ows h.lead) (.append (unbroken_token h.name)
    (.append (unbroken_ows h.trail) ?_)))
  have hvalue := h.value
  cases hv : e.value with
  | none => exact unbroken_nil
  | some v =>
    obtain ⟨hlead, hwell, htrail⟩ := hvalue v hv
    exact .cons (by decide) (.append (unbroken_ows hlead) (.append hwell.unbroken
      (unbroken_ows htrail)))

def sizeText (digits : Bytes) (extensions : List ChunkExtension) : Bytes :=
  digits ++ extensions.flatMap ChunkExtension.text

variable {digits : Bytes} {n : Nat}

theorem sizeText_unbroken {extensions : List ChunkExtension} (hspells : Spells digits n)
    (h : ∀ e ∈ extensions, e.WellFormed) : Unbroken (sizeText digits extensions) := by
  apply Unbroken.append
  · have hall : ∀ b, decide (isAsciiHexdigit b = true → b ≠ 10 ∧ b ≠ 13) = true :=
      forall_byte (by decide +kernel)
    exact unbroken_of_all hspells.hex fun b hb => of_decide_eq_true (hall b) hb
  · intro x hx
    obtain ⟨e, he, hx⟩ := List.mem_flatMap.mp hx
    exact (h e he).unbroken x hx

theorem hexDigit_eq {b : UInt8} (h : isAsciiHexdigit b = true) :
    hexDigit b = some (digitValue b) := by
  have hall : ∀ b, decide (isAsciiHexdigit b = true → hexDigit b = some (digitValue b)) = true :=
    forall_byte (by decide +kernel)
  exact of_decide_eq_true (hall b) h

theorem chunkSize_eq (hhex : digits.all isAsciiHexdigit = true)
    (hroom : (n + 1) * 16 ^ digits.length ≤ 2 ^ 64) :
    chunkSize digits n = .ok (digits.foldl (fun n d => n * 16 + digitValue d) n) := by
  induction digits generalizing n with
  | nil => rfl
  | cons d digits ih =>
    rw [List.all_cons, Bool.and_eq_true] at hhex
    have hd := digitValue_lt hhex.1
    have hnext : (n * 16 + digitValue d + 1) * 16 ^ digits.length ≤ 2 ^ 64 := by
      calc (n * 16 + digitValue d + 1) * 16 ^ digits.length
          ≤ ((n + 1) * 16) * 16 ^ digits.length := Nat.mul_le_mul_right _ (by omega)
        _ = (n + 1) * 16 ^ (d :: digits).length := by
            rw [List.length_cons, Nat.pow_succ, Nat.mul_assoc, Nat.mul_comm 16]
        _ ≤ 2 ^ 64 := hroom
    have hfits : n * 16 + digitValue d + 1 ≤ 2 ^ 64 :=
      (Nat.le_mul_of_pos_right _ (Nat.pow_pos (by decide))).trans hnext
    have hno : ¬ (2 ^ 64 ≤ n * 16 ∨ 2 ^ 64 ≤ n * 16 + digitValue d) := by omega
    simp only [chunkSize, hexDigit_eq hhex.1, hno, if_false]
    exact ih hhex.2 hnext

theorem parseChunkSizeLine_text {extensions : List ChunkExtension} (hspells : Spells digits n)
    (h : ∀ e ∈ extensions, e.WellFormed) :
    parseChunkSizeLine (sizeText digits extensions) = .ok n := by
  obtain ⟨hcloses, hvalid⟩ := validateChunkExtensions_text h
  have hplain : ∀ b ∈ digits, decide (b ≠ 59) = true := by
    intro b hb
    have hmem := hex_not_mem (b := 59) hspells.hex (by decide)
    simpa using fun heq : b = 59 => hmem (heq ▸ hb)
  have htake : (sizeText digits extensions).takeWhile (· ≠ 59) = digits := by
    rw [sizeText, List.takeWhile_append_of_pos hplain]
    cases hrest : extensions.flatMap ChunkExtension.text with
    | nil => simp
    | cons b rest =>
      have hb := hcloses b (by rw [hrest]; rfl)
      simp [hb]
  have hdrop : (sizeText digits extensions).dropWhile (· ≠ 59)
      = extensions.flatMap ChunkExtension.text := by
    rw [sizeText, List.dropWhile_append_of_pos hplain]
    cases hrest : extensions.flatMap ChunkExtension.text with
    | nil => simp
    | cons b rest =>
      have hb := hcloses b (by rw [hrest]; rfl)
      simp [hb]
  have hroom : (0 + 1) * 16 ^ digits.length ≤ 2 ^ 64 := by
    rw [Nat.zero_add, Nat.one_mul]
    calc 16 ^ digits.length ≤ 16 ^ 16 := Nat.pow_le_pow_right (by decide) hspells.length_le
      _ = 2 ^ 64 := by decide
  have hsize : chunkSize digits 0 = .ok n := by
    rw [chunkSize_eq hspells.hex hroom, ← hspells.value]
    rfl
  have hlength : ¬ (digits.isEmpty = true ∨ 16 < digits.length) := by
    rw [not_or, not_lt, List.isEmpty_iff]
    exact ⟨hspells.nonempty, hspells.length_le⟩
  simp only [parseChunkSizeLine, htake, hdrop, hlength, if_false, hsize, hvalid]

/-- A field in the trailer. -/
structure TrailerField where
  name : Bytes
  value : Bytes

def TrailerField.text (t : TrailerField) : Bytes := t.name ++ 58 :: t.value

structure TrailerField.WellFormed (t : TrailerField) : Prop where
  name_nonempty : t.name ≠ []
  name : t.name.all isTchar = true
  value : validFieldValue t.value = true

variable {t : TrailerField}

theorem TrailerField.WellFormed.validate (h : t.WellFormed) :
    validateTrailerLine t.text = .ok ⟨⟩ := by
  have hstart : t.text.head?.any isOws = false := by
    have hhead : ∀ b ∈ t.text.head?, isOws b = false := fun b hb =>
      (tchar_byte (head_of_all h.name_nonempty h.name b hb)).1
    cases htext : t.text.head? with
    | none => rfl
    | some b => exact hhead b htext
  have hsplit : splitOnce 58 t.text = some (t.name, t.value) := by
    apply splitOnce_append
    intro hmem
    exact (tchar_byte (List.all_eq_true.mp h.name 58 hmem)).2.2.2.2.1 rfl
  have hname : ¬ (t.name.isEmpty = true ∨ ¬ t.name.all isTchar = true) := by
    rw [not_or, not_not, List.isEmpty_iff]
    exact ⟨h.name_nonempty, h.name⟩
  simp only [validateTrailerLine, hstart, hsplit, hname, h.value, not_true_eq_false, if_false]
  rfl

theorem TrailerField.WellFormed.unbroken (h : t.WellFormed) : Unbroken t.text := by
  refine .append (unbroken_token h.name) (.cons (by decide) ?_)
  have hall : ∀ b : UInt8, decide ((b = 9 || (32 ≤ b && b ≠ 127)) = true → b ≠ 10 ∧ b ≠ 13) = true :=
    forall_byte (by decide +kernel)
  exact unbroken_of_all h.value fun b hb => of_decide_eq_true (hall b) hb

/-! ## 2. How lines and data are read -/

theorem line_inside {line as rest : Bytes} {b : UInt8} (h : Unbroken line)
    (hline : line ++ [13] = as ++ b :: rest) :
    b ≠ 10 ∧ as.getLast? ≠ some 13 ∧ as.length ≤ line.length := by
  have hpart : as <+: line := by
    have hlength := congrArg List.length hline
    simp only [List.length_append, List.length_cons, List.length_nil] at hlength
    exact List.prefix_of_prefix_length_le ⟨_, hline.symm⟩ (List.prefix_append line [13]) (by omega)
  refine ⟨?_, ?_, hpart.length_le⟩
  · have hb : b ∈ line ++ [13] := by rw [hline]; simp
    rcases List.mem_append.mp hb with hb | hb
    · exact (h b hb).1
    · rw [List.mem_singleton.mp hb]
      decide
  · intro hlast
    exact (h 13 (hpart.subset (List.mem_of_getLast? hlast))).2 rfl

def HttpChunkedDecoder.sizing (d : HttpChunkedDecoder) (line : Bytes) : HttpChunkedDecoder :=
  { d with wireBytes := d.wireBytes + line.length, state := .sizeLine line }

def HttpChunkedDecoder.trailing (d : HttpChunkedDecoder) (line : Bytes) : HttpChunkedDecoder :=
  { d with
    wireBytes := d.wireBytes + line.length
    trailerBytes := d.trailerBytes + line.length
    state := .trailerLine line }

section Reading

variable {d : HttpChunkedDecoder} {line : Bytes}

theorem sizing_nil (hstate : d.state = .sizeLine []) : d.sizing [] = d := by
  cases d
  cases hstate
  rfl

theorem trailing_nil (hstate : d.state = .trailerLine []) : d.trailing [] = d := by
  cases d
  cases hstate
  rfl

theorem reads_sizing (hline : Unbroken line) (hlength : line.length < maxChunkLineBytes)
    (hwire : d.wireBytes + (line.length + 1) ≤ maxHttpWireBytes) :
    byteScanner.Reads (d.sizing []) (line ++ [13]) (d.sizing (line ++ [13])) [] := by
  apply Scanner.Reads.along d.sizing
  intro as b rest has
  obtain ⟨hb, hlast, hle⟩ := line_inside hline has
  constructor
  · simp [byteScanner, HttpChunkedDecoder.isComplete, HttpChunkedDecoder.sizing]
  · have hcharge : ¬ maxHttpWireBytes < d.wireBytes + (as.length + 1) := by omega
    have hroom : ¬ (as.getLast? = some 13 ∨ maxChunkLineBytes ≤ as.length) := by
      rw [not_or, not_le]
      exact ⟨hlast, by omega⟩
    simp only [byteScanner, HttpChunkedDecoder.round, HttpChunkedDecoder.sizing, chargeWire_eq,
      hcharge, if_false, hb, hroom, List.length_append, List.length_singleton, Nat.add_assoc]

/-- **A size line.** -/
theorem reads_size {size : Nat} (hstate : d.state = .sizeLine []) (hline : Unbroken line)
    (hlength : line.length < maxChunkLineBytes)
    (hwire : d.wireBytes + (line.length + 2) ≤ maxHttpWireBytes)
    (hparsed : parseChunkSizeLine line = .ok size)
    (hsize : d.decodedBytes + size ≤ maxHttpBodyBytes) : byteScanner.Reads d (line ++ crlf)
      { d with wireBytes := d.wireBytes + (line.length + 2), state := .ofSize size } [] := by
  have hcollect := reads_sizing (d := d) hline hlength (by omega)
  rw [sizing_nil hstate] at hcollect
  have hsplit : line ++ crlf = line ++ [13] ++ [10] := by simp [crlf]
  rw [hsplit]
  refine hcollect.append (.single rfl ?_)
  have hbody : maxHttpBodyBytes < 2 ^ 64 := by decide
  have hcharge : ¬ maxHttpWireBytes < d.wireBytes + (line.length + 2) := by omega
  have hmax : ¬ 2 ^ 64 ≤ d.decodedBytes + size := by omega
  have htotal : ¬ maxHttpBodyBytes < d.decodedBytes + size := by omega
  have hlast : ¬ (line ++ [13]).getLast? ≠ some 13 := by simp
  simp only [byteScanner, HttpChunkedDecoder.round, HttpChunkedDecoder.sizing, chargeWire_eq,
    hcharge, if_false, if_true, hlast, List.dropLast_concat, hparsed, hmax, htotal,
    List.length_append, List.length_singleton, Nat.add_assoc, Nat.reduceAdd]

theorem reads_trailing (hline : Unbroken line) (hlength : line.length < maxTrailerLineBytes)
    (hwire : d.wireBytes + (line.length + 1) ≤ maxHttpWireBytes)
    (htrailer : d.trailerBytes + (line.length + 1) ≤ maxTrailerBytes) :
    byteScanner.Reads (d.trailing []) (line ++ [13]) (d.trailing (line ++ [13])) [] := by
  apply Scanner.Reads.along d.trailing
  intro as b rest has
  obtain ⟨hb, hlast, hle⟩ := line_inside hline has
  constructor
  · simp [byteScanner, HttpChunkedDecoder.isComplete, HttpChunkedDecoder.trailing]
  · have hlimit : maxTrailerBytes < 2 ^ 64 := by decide
    have hcharge : ¬ maxHttpWireBytes < d.wireBytes + (as.length + 1) := by omega
    have hmax : ¬ 2 ^ 64 ≤ d.trailerBytes + (as.length + 1) := by omega
    have htotal : ¬ maxTrailerBytes < d.trailerBytes + (as.length + 1) := by omega
    have hroom : ¬ (as.getLast? = some 13 ∨ maxTrailerLineBytes ≤ as.length) := by
      rw [not_or, not_le]
      exact ⟨hlast, by omega⟩
    simp only [byteScanner, HttpChunkedDecoder.round, HttpChunkedDecoder.trailing, chargeWire_eq,
      hcharge, hmax, htotal, if_false, hb, hroom, List.length_append, List.length_singleton,
      Nat.add_assoc]

/-- **A field of the trailer.** -/
theorem reads_field (h : t.WellFormed) (hstate : d.state = .trailerLine [])
    (hlength : t.text.length < maxTrailerLineBytes)
    (hwire : d.wireBytes + (t.text.length + 2) ≤ maxHttpWireBytes)
    (htrailer : d.trailerBytes + (t.text.length + 2) ≤ maxTrailerBytes)
    (hcount : d.trailers < maxTrailers) :
    byteScanner.Reads d (t.text ++ crlf)
      { d with
        wireBytes := d.wireBytes + (t.text.length + 2)
        trailerBytes := d.trailerBytes + (t.text.length + 2)
        trailers := d.trailers + 1 } [] := by
  have hcollect := reads_trailing (d := d) h.unbroken hlength (by omega) (by omega)
  rw [trailing_nil hstate] at hcollect
  have hsplit : t.text ++ crlf = t.text ++ [13] ++ [10] := by simp [crlf]
  rw [hsplit]
  refine hcollect.append (.single rfl ?_)
  have hlimit : maxTrailerBytes < 2 ^ 64 := by decide
  have hcharge : ¬ maxHttpWireBytes < d.wireBytes + (t.text.length + 2) := by omega
  have hmax : ¬ 2 ^ 64 ≤ d.trailerBytes + (t.text.length + 2) := by omega
  have htotal : ¬ maxTrailerBytes < d.trailerBytes + (t.text.length + 2) := by omega
  have hlast : ¬ (t.text ++ [13]).getLast? ≠ some 13 := by simp
  have hempty : ¬ t.text.isEmpty = true := by simp [TrailerField.text]
  have hroom : ¬ maxTrailers < d.trailers + 1 := by omega
  simp only [byteScanner, HttpChunkedDecoder.round, HttpChunkedDecoder.trailing, chargeWire_eq,
    hcharge, hmax, htotal, if_false, if_true, hlast, List.dropLast_concat, hempty, h.validate,
    hroom, List.length_append, List.length_singleton, Nat.add_assoc, Nat.reduceAdd, hstate]
  rfl

/-- **The empty line** ends the body. -/
theorem reads_end (hstate : d.state = .trailerLine [])
    (hwire : d.wireBytes + 2 ≤ maxHttpWireBytes) (htrailer : d.trailerBytes + 2 ≤ maxTrailerBytes) :
    byteScanner.Reads d crlf
      { d with
        wireBytes := d.wireBytes + 2
        trailerBytes := d.trailerBytes + 2
        state := .complete } [] := by
  have hcollect := reads_trailing (d := d) unbroken_nil (by decide)
    (by simp only [List.length_nil]; omega) (by simp only [List.length_nil]; omega)
  rw [trailing_nil hstate, List.nil_append] at hcollect
  change byteScanner.Reads d ([13] ++ [10]) _ _
  refine hcollect.append (.single rfl ?_)
  have hlimit : maxTrailerBytes < 2 ^ 64 := by decide
  have hcharge : ¬ maxHttpWireBytes < d.wireBytes + 2 := by omega
  have hmax : ¬ 2 ^ 64 ≤ d.trailerBytes + 2 := by omega
  have htotal : ¬ maxTrailerBytes < d.trailerBytes + 2 := by omega
  have hlast : ¬ ([13] : Bytes).getLast? ≠ some 13 := by simp
  simp only [byteScanner, HttpChunkedDecoder.round, HttpChunkedDecoder.trailing, chargeWire_eq,
    hcharge, hmax, htotal, if_false, if_true, hlast, List.length_singleton, Nat.add_assoc,
    Nat.reduceAdd]
  rfl

/-- **The data of a chunk** and the line end behind it. -/
theorem reads_data {data : Bytes} (hdata : data ≠ []) (hstate : d.state = .ofSize data.length)
    (hwire : d.wireBytes + (data.length + 2) ≤ maxHttpWireBytes) :
    byteScanner.Reads d (data ++ crlf)
      { d with
        wireBytes := d.wireBytes + (data.length + 2)
        decodedBytes := d.decodedBytes + data.length
        state := .sizeLine [] } data := by
  have hpos : data.length ≠ 0 := fun hzero => hdata (List.length_eq_zero_iff.mp hzero)
  rw [ChunkState.ofSize, dif_neg hpos] at hstate
  have hscan := scan_data hstate hdata (Nat.le_refl _)
  rw [if_neg (by omega), Nat.sub_self] at hscan
  have hend : byteScanner.Reads
      { d with
        wireBytes := d.wireBytes + data.length
        decodedBytes := d.decodedBytes + data.length
        state := .missing 0 } crlf
      { d with
        wireBytes := d.wireBytes + (data.length + 2)
        decodedBytes := d.decodedBytes + data.length
        state := .sizeLine [] } [] := by
    have hcr : ¬ maxHttpWireBytes < d.wireBytes + (data.length + 1) := by omega
    have hlf : ¬ maxHttpWireBytes < d.wireBytes + (data.length + 2) := by omega
    have hfirst : byteScanner.Reads
        { d with
          wireBytes := d.wireBytes + data.length
          decodedBytes := d.decodedBytes + data.length
          state := .missing 0 } [13]
        { d with
          wireBytes := d.wireBytes + (data.length + 1)
          decodedBytes := d.decodedBytes + data.length
          state := .dataCrLf 1 } [] := by
      refine .single rfl ?_
      simp only [byteScanner, HttpChunkedDecoder.round, ChunkState.missing, dite_true,
        chargeWire_eq, Nat.add_assoc, hcr, if_false]
      rfl
    change byteScanner.Reads _ ([13] ++ [10]) _ _
    refine hfirst.append (.single rfl ?_)
    simp only [byteScanner, HttpChunkedDecoder.round, chargeWire_eq, Nat.add_assoc, Nat.reduceAdd,
      hlf, if_false]
    rfl
  have hreads := Scanner.Reads.append (M := byteScanner) hscan hend
  rwa [List.append_nil] at hreads

end Reading

/-! ## 3. Bodies -/

/-- A chunk on the wire: the digits of its size, its extensions and its data. -/
structure TransportChunk where
  digits : Bytes
  extensions : List ChunkExtension
  data : Bytes

namespace TransportChunk

def line (c : TransportChunk) : Bytes := sizeText c.digits c.extensions

def wire (c : TransportChunk) : Bytes := c.line ++ crlf ++ (c.data ++ crlf)

/-- The size line says how much data follows. -/
structure Fits (c : TransportChunk) : Prop where
  spells : Spells c.digits c.data.length
  extensions : ∀ e ∈ c.extensions, e.WellFormed
  line_lt : c.line.length < maxChunkLineBytes

end TransportChunk

structure TransportBody where
  chunks : List TransportChunk
  last : TransportChunk
  trailers : List TrailerField

namespace TransportBody

def data (chunks : List TransportChunk) : Bytes := chunks.flatMap TransportChunk.data

def chunkWires (chunks : List TransportChunk) : Bytes := chunks.flatMap TransportChunk.wire

def trailerWires (trailers : List TrailerField) : Bytes :=
  trailers.flatMap fun t => t.text ++ crlf

def wire (e : TransportBody) : Bytes :=
  chunkWires e.chunks ++ (e.last.line ++ crlf) ++ (trailerWires e.trailers ++ crlf)

structure Valid (e : TransportBody) : Prop where
  chunks : ∀ c ∈ e.chunks, c.data ≠ [] ∧ c.Fits
  last_empty : e.last.data = []
  last : e.last.Fits
  trailers : ∀ t ∈ e.trailers, t.WellFormed ∧ t.text.length < maxTrailerLineBytes
  data_le : (data e.chunks).length ≤ maxHttpBodyBytes
  trailers_le : e.trailers.length ≤ maxTrailers
  trailerBytes_le : (trailerWires e.trailers ++ crlf).length ≤ maxTrailerBytes
  wire_le : e.wire.length ≤ maxHttpWireBytes

end TransportBody

section Bodies

variable {d : HttpChunkedDecoder}

theorem reads_chunk {c : TransportChunk} (h : c.Fits) (hdata : c.data ≠ [])
    (hstate : d.state = .sizeLine []) (hwire : d.wireBytes + c.wire.length ≤ maxHttpWireBytes)
    (hsize : d.decodedBytes + c.data.length ≤ maxHttpBodyBytes) :
    byteScanner.Reads d c.wire
      { d with
        wireBytes := d.wireBytes + c.wire.length
        decodedBytes := d.decodedBytes + c.data.length } c.data := by
  have hlength : c.wire.length = c.line.length + 2 + (c.data.length + 2) := by
    have hcrlf : crlf.length = 2 := rfl
    simp only [TransportChunk.wire, List.length_append, hcrlf]
  have hline := reads_size hstate (sizeText_unbroken h.spells h.extensions) h.line_lt
    (by change d.wireBytes + (c.line.length + 2) ≤ _; omega)
    (parseChunkSizeLine_text h.spells h.extensions) hsize
  have hrest := reads_data (d := { d with
    wireBytes := d.wireBytes + (c.line.length + 2)
    state := .ofSize c.data.length }) hdata rfl (by simp only; omega)
  have hreads := hline.append hrest
  have hend : d.wireBytes + (c.line.length + 2) + (c.data.length + 2)
      = d.wireBytes + c.wire.length := by omega
  simp only [hend, ← hstate] at hreads
  exact hreads

/-- **Chunks**, by induction on their list. -/
theorem reads_chunks {chunks : List TransportChunk} (h : ∀ c ∈ chunks, c.data ≠ [] ∧ c.Fits)
    (hstate : d.state = .sizeLine [])
    (hwire : d.wireBytes + (TransportBody.chunkWires chunks).length ≤ maxHttpWireBytes)
    (hsize : d.decodedBytes + (TransportBody.data chunks).length ≤ maxHttpBodyBytes) :
    byteScanner.Reads d (TransportBody.chunkWires chunks)
      { d with
        wireBytes := d.wireBytes + (TransportBody.chunkWires chunks).length
        decodedBytes := d.decodedBytes + (TransportBody.data chunks).length }
      (TransportBody.data chunks) := by
  induction chunks generalizing d with
  | nil => exact .nil d
  | cons c chunks ih =>
    obtain ⟨hdata, hfits⟩ := h c List.mem_cons_self
    simp only [TransportBody.chunkWires, TransportBody.data, List.flatMap_cons,
      List.length_append] at hwire hsize ih ⊢
    have hfirst := reads_chunk hfits hdata hstate (by omega) (by omega)
    have hrest := ih (d := { d with
        wireBytes := d.wireBytes + c.wire.length
        decodedBytes := d.decodedBytes + c.data.length })
      (fun x hx => h x (List.mem_cons_of_mem _ hx)) hstate (by simp only; omega)
      (by simp only; omega)
    have hreads := hfirst.append hrest
    simp only [Nat.add_assoc] at hreads
    exact hreads

/-- **The trailer**, by induction on its fields. -/
theorem reads_trailers {trailers : List TrailerField}
    (h : ∀ t ∈ trailers, t.WellFormed ∧ t.text.length < maxTrailerLineBytes)
    (hstate : d.state = .trailerLine [])
    (hwire : d.wireBytes + (TransportBody.trailerWires trailers).length ≤ maxHttpWireBytes)
    (htrailer : d.trailerBytes + (TransportBody.trailerWires trailers).length ≤ maxTrailerBytes)
    (hcount : d.trailers + trailers.length ≤ maxTrailers) :
    byteScanner.Reads d (TransportBody.trailerWires trailers)
      { d with
        wireBytes := d.wireBytes + (TransportBody.trailerWires trailers).length
        trailerBytes := d.trailerBytes + (TransportBody.trailerWires trailers).length
        trailers := d.trailers + trailers.length } [] := by
  induction trailers generalizing d with
  | nil => exact .nil d
  | cons t trailers ih =>
    obtain ⟨hwell, hlength⟩ := h t List.mem_cons_self
    have hcrlf : crlf.length = 2 := rfl
    simp only [TransportBody.trailerWires, List.flatMap_cons, List.length_append, hcrlf,
      List.length_cons] at hwire htrailer hcount ih ⊢
    have hfirst := reads_field hwell hstate hlength (by omega) (by omega) (by omega)
    have hrest := ih (d := { d with
        wireBytes := d.wireBytes + (t.text.length + 2)
        trailerBytes := d.trailerBytes + (t.text.length + 2)
        trailers := d.trailers + 1 })
      (fun x hx => h x (List.mem_cons_of_mem _ hx)) hstate (by simp only; omega)
      (by simp only; omega) (by simp only; omega)
    have hreads := hfirst.append hrest
    simp only [Nat.add_assoc, Nat.add_comm 1, List.append_nil] at hreads ⊢
    exact hreads

/-- **A body** is read to its end. -/
theorem reads_body {e : TransportBody} (h : e.Valid) :
    ∃ d, byteScanner.Reads .new e.wire d (TransportBody.data e.chunks) ∧
      byteScanner.halted d = true := by
  have hcrlf : crlf.length = 2 := rfl
  have hwire := h.wire_le
  have htrailer := h.trailerBytes_le
  simp only [TransportBody.wire, List.length_append, hcrlf] at hwire htrailer
  have hchunks := reads_chunks (d := .new) h.chunks rfl
    (by simp only [HttpChunkedDecoder.new]; omega)
    (by simpa [HttpChunkedDecoder.new] using h.data_le)
  have hspells := h.last.spells
  rw [h.last_empty] at hspells
  have hdata := h.data_le
  have hlast := reads_size (d := { HttpChunkedDecoder.new with
      wireBytes := 0 + (TransportBody.chunkWires e.chunks).length
      decodedBytes := 0 + (TransportBody.data e.chunks).length })
    rfl (sizeText_unbroken hspells h.last.extensions) h.last.line_lt
    (by change _ + (e.last.line.length + 2) ≤ _; simp only; omega)
    (parseChunkSizeLine_text hspells h.last.extensions) (by simp only [List.length_nil]; omega)
  have htrailers := reads_trailers (d := { HttpChunkedDecoder.new with
      wireBytes := 0 + (TransportBody.chunkWires e.chunks).length + (e.last.line.length + 2)
      decodedBytes := 0 + (TransportBody.data e.chunks).length
      state := .ofSize 0 }) h.trailers rfl (by simp only; omega)
    (by simp only [HttpChunkedDecoder.new]; omega)
    (by simpa [HttpChunkedDecoder.new] using h.trailers_le)
  have hend := reads_end (d := { HttpChunkedDecoder.new with
      wireBytes := 0 + (TransportBody.chunkWires e.chunks).length + (e.last.line.length + 2)
        + (TransportBody.trailerWires e.trailers).length
      decodedBytes := 0 + (TransportBody.data e.chunks).length
      trailerBytes := 0 + (TransportBody.trailerWires e.trailers).length
      trailers := 0 + e.trailers.length
      state := .ofSize 0 }) rfl (by simp only; omega) (by simp only; omega)
  have hreads := (hchunks.append hlast).append (htrailers.append hend)
  simp only [List.append_nil] at hreads
  exact ⟨_, hreads, rfl⟩

end Bodies

/-! ## 4. The coding is decoded exactly -/

/-- **Chunked transfer coding.**  However the input is cut, it is decoded with the same error,
    or to the same bytes, with as many bytes consumed, and complete or not.  A body that keeps
    to the limits is decoded and consumed, and nothing that stands behind it. -/
theorem transport_decoding :
    (∀ fragments fragments' : List Bytes, fragments.flatten = fragments'.flatten →
      transcript fragments = transcript fragments') ∧ ∀ e : TransportBody, e.Valid → ∀ rest : Bytes,
      transcript [e.wire ++ rest] = .ok (TransportBody.data e.chunks, ⟨e.wire.length, true⟩) := by
  constructor
  · intro fragments fragments' h
    exact transcript_flatten h
  · intro e h rest
    obtain ⟨d, hreads, hhalted⟩ := reads_body h
    have hcomplete : d.isComplete = true := hhalted
    rw [transcript, byteScanner.feed_eq reading_eq_scan]
    simp only [List.flatten_cons, List.flatten_nil, List.append_nil, hreads.stops hhalted rest,
      hcomplete]

/-- Two chunks, the second with a quoted extension, and a field behind them. -/
def sampleBody : TransportBody where
  chunks := [⟨Protocol.ascii "2", [], Protocol.ascii "ab"⟩,
    ⟨Protocol.ascii "01", [⟨Protocol.ascii " ", Protocol.ascii "n", [],
      some ([], .quoted [.plain 118, .escaped 34], [])⟩],
      Protocol.ascii "c"⟩]
  last := ⟨Protocol.ascii "0", [], []⟩
  trailers := [⟨Protocol.ascii "t", Protocol.ascii " v"⟩]

theorem sampleBody_valid : sampleBody.Valid where
  chunks := by
    intro c hc
    rcases List.mem_cons.mp hc with rfl | hc
    · refine ⟨by decide, ⟨by decide, by decide, by decide, by decide⟩, ?_, by decide⟩
      intro e he
      cases he
    · rw [List.mem_singleton.mp hc]
      refine ⟨by decide, ⟨by decide, by decide, by decide, by decide⟩, ?_, by decide⟩
      intro e he
      rw [List.mem_singleton.mp he]
      refine ⟨by decide, by decide, by decide +kernel, by decide, ?_⟩
      intro v hv
      cases hv
      refine ⟨by decide, ?_, by decide⟩
      intro b hb
      rcases List.mem_cons.mp hb with rfl | hb
      · exact (by decide : isQuotedText 118 = true)
      · rw [List.mem_singleton.mp hb]
        exact (by decide : isEscapable 34 = true)
  last_empty := rfl
  last := ⟨⟨by decide, by decide, by decide, by decide⟩, (by intro e he; cases he), by decide⟩
  trailers := by
    intro t ht
    rw [List.mem_singleton.mp ht]
    exact ⟨⟨by decide, by decide +kernel, by decide +kernel⟩, by decide⟩
  data_le := by decide
  trailers_le := by decide
  trailerBytes_le := by decide
  wire_le := by decide

theorem transport_decoding_sample :
    sampleBody.wire = Protocol.ascii "2\r\nab\r\n01; n=\"v\\\"\"\r\nc\r\n0\r\nt: v\r\n\r\n" ∧
    transcript [Protocol.ascii "2\r", Protocol.ascii "\na",
        Protocol.ascii "b\r\n01; n=\"v\\\"\"\r\nc\r\n0\r\nt: v\r\n\r\nGET"]
      = transcript [sampleBody.wire ++ Protocol.ascii "GET"] ∧
    transcript [sampleBody.wire ++ Protocol.ascii "GET"] = .ok (Protocol.ascii "abc", ⟨34, true⟩) := by
  obtain ⟨hcuts, hbodies⟩ := transport_decoding
  refine ⟨by decide +kernel, hcuts _ _ (by decide +kernel), ?_⟩
  exact hbodies sampleBody sampleBody_valid (Protocol.ascii "GET")

end Pgs3.Workers
