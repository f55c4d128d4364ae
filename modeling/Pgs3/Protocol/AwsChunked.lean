import Pgs3.Foundation.Stateful
import Pgs3.Protocol.Ascii

/-!
# The `aws-chunked` decoder

Translation of `protocol/chunked.rs`: an incremental decoder that is fed a body in
arbitrary fragments and appends the data of each complete chunk to the caller's output.
In signed mode every chunk carries a signature that is chained to the one before; in
unsigned-trailer mode the checksums of the final trailers cover the whole body.

`usize` and `u64` are natural numbers, with the `checked_add`s written out.  The five
running hashers of the decoder are one byte string, everything they were updated with.
A failed `expect` is the fault `panic`.
-/

namespace Pgs3.Protocol

open Foundation Foundation.Stateful

/-! ## 1. Types -/

def maxBufferedChunkBytes : Nat := 1024 * 1024

structure ChunkedLimits where
  maxChunkHeaderBytes : Nat := 1024
  maxChunkBytes : Nat := maxBufferedChunkBytes
  maxDecodedBytes : Nat := 5 * 1024 * 1024 * 1024
  maxTrailerBytes : Nat := 16 * 1024
  maxTrailers : Nat := 8
  expectedDecodedLength : Option Nat := none

structure StreamingSigningContext where
  signingKey : Digest32
  amzDate : Bytes
  credentialScope : Bytes
  seedSignature : Digest32

inductive AwsChunkedMode where
  | signed (context : StreamingSigningContext)
  | unsignedTrailer (declaredTrailers : List Bytes)

inductive DecodeStatus where
  | needMore
  | done
deriving DecidableEq, Repr

structure DecodedTrailer where
  name : Bytes
  value : Bytes
deriving DecidableEq, Repr

inductive ChunkedError where
  | inputAfterEnd
  | headerTooLarge
  | invalidChunkHeader
  | chunkTooLarge
  | missingChunkSignature
  | unexpectedChunkSignature
  | chunkSignatureMismatch
  | missingChunkTerminator
  | decodedBodyTooLarge
  | decodedLengthMismatch (expected actual : Nat)
  | trailerTooLarge
  | tooManyTrailers
  | invalidTrailer
  | duplicateTrailer (name : Bytes)
  | undeclaredTrailer (name : Bytes)
  | missingTrailer (name : Bytes)
  | unsupportedChecksum (name : Bytes)
  | invalidChecksumEncoding (name : Bytes)
  | checksumMismatch (name : Bytes)
  | unexpectedTrailer
deriving DecidableEq, Repr

/-- How a call can fail: with an error of the decoder, or in an `expect`. -/
inductive Fault where
  | error (e : ChunkedError)
  | panic
deriving DecidableEq, Repr

inductive DecodePhase where
  | header
  | data
  | dataCrlf
  | trailers
  | done
deriving DecidableEq, Repr

/-- The chunk whose data is being received, never more of it than announced. -/
structure CurrentChunk where
  size : Nat
  data : Bytes
  signature : Option Digest32
  fits : data.length ≤ size

structure AwsChunkedDecoder where
  mode : AwsChunkedMode
  limits : ChunkedLimits
  phase : DecodePhase
  input : Bytes
  offset : Nat
  current : Option CurrentChunk
  decodedBytes : Nat
  /-- What `crc32`, `crc32c`, `crc64nvme`, `sha1` and `sha256` were updated with. -/
  hashed : Bytes
  trailers : List DecodedTrailer
  trailerBytes : Nat
  previousSignature : Option Digest32

/-- The decoder and the caller's output buffer. -/
structure Decoding extends AwsChunkedDecoder where
  output : Bytes

abbrev DecodeM := Stateful Decoding Fault

/-- `return Err(e)` and `?`. -/
def fail {α : Type} (e : ChunkedError) : DecodeM α := throw (.error e)

def orFail {α : Type} (r : Except ChunkedError α) : DecodeM α :=
  Stateful.ofExcept (r.mapError .error)

/-! ## 2. Lines and headers -/

def AwsChunkedDecoder.available (d : AwsChunkedDecoder) : Bytes := d.input.drop d.offset

/-- `take_line`; `tooLarge` is the error that its flag `trailer` selects. -/
def takeLine (limit : Nat) (tooLarge : ChunkedError) : DecodeM (Option Bytes) := do
  let available := (← get).available
  match crlfPosition available with
  | none => if limit < available.length then fail tooLarge else return none
  | some position =>
      if limit < position then fail tooLarge
      else
        modify fun s => { s with offset := s.offset + (position + 2) }
        return some (available.take position)

/-- `u64::from_str_radix(value, 16)` on hexadecimal digits. -/
def fromStrRadix16 (digits : Bytes) : Option Nat := do
  let nibbles ← digits.mapM hexNibble
  let value := nibbles.foldl (fun n d => n * 16 + d.toNat) 0
  if value < 2 ^ 64 then some value else none

/-- The loop over the extensions of a chunk header. -/
def parseExtensions : List Bytes → Option Digest32 → Except ChunkedError (Option Digest32)
  | [], signature => .ok signature
  | extension :: fields, signature =>
      match splitOnce 61 extension with
      | none => .error .invalidChunkHeader
      | some (name, value) =>
          if name ≠ ascii "chunk-signature" ∨ signature.isSome then .error .invalidChunkHeader
          else
            match decodeHex32 value with
            | none => .error .invalidChunkHeader
            | some decoded => parseExtensions fields (some decoded)

def parseChunkHeader (line : Bytes) : Except ChunkedError (Nat × Option Digest32) :=
  match line.splitOn 59 with
  | [] => .error .invalidChunkHeader
  | size :: fields =>
      if size.isEmpty ∨ 16 < size.length ∨ ¬ size.all isAsciiHexdigit then
        .error .invalidChunkHeader
      else
        match fromStrRadix16 size with
        | none => .error .invalidChunkHeader
        | some size => (parseExtensions fields none).map fun signature => (size, signature)

/-! ## 3. Chunks -/

/-- The SHA-256 of the empty string, as the wire format wants it. -/
def emptySha256 : Bytes :=
  ascii "e3b0c44298fc1c149afbf4c8996fb92427ae41e4649b934ca495991b7852b855"

/-- `string_to_sign` of a chunk whose predecessor was signed with `previous`. -/
def chunkStringToSign (K : Crates) (context : StreamingSigningContext) (previous : Digest32)
    (data : Bytes) : Bytes :=
  ascii "AWS4-HMAC-SHA256-PAYLOAD\n" ++ context.amzDate ++ ascii "\n"
    ++ context.credentialScope ++ ascii "\n" ++ hexLower previous.1 ++ ascii "\n"
    ++ emptySha256 ++ ascii "\n" ++ hexLower (K.sha256 data)

def verifyChunkSignature (K : Crates) (data : Bytes) (signature : Digest32) :
    DecodeM Unit := do
  let s ← get
  match s.mode with
  | .unsignedTrailer _ => fail .unexpectedChunkSignature
  | .signed context =>
      match s.previousSignature with
      | none => throw .panic
      | some previous =>
          if verifyHmac K context.signingKey.1 (chunkStringToSign K context previous data)
            signature then return ⟨⟩
          else fail .chunkSignatureMismatch

/-- `decoded > self.limits.max_decoded_bytes || expected.is_some_and(decoded > expected)`. -/
def ChunkedLimits.exceeded (limits : ChunkedLimits) (decoded : Nat) : Bool :=
  limits.maxDecodedBytes < decoded || limits.expectedDecodedLength.any (· < decoded)

def acceptDecoded (data : Bytes) : DecodeM Unit := do
  let s ← get
  if 2 ^ 64 ≤ s.decodedBytes + data.length then fail .decodedBodyTooLarge
  modify fun s => { s with decodedBytes := s.decodedBytes + data.length }
  if s.limits.exceeded (s.decodedBytes + data.length) then fail .decodedBodyTooLarge
  modify fun s => { s with hashed := s.hashed ++ data, output := s.output ++ data }

/-- Verify a chunk's signature where it has one, and make it the predecessor of the next. -/
def chainSignature (K : Crates) (data : Bytes) : Option Digest32 → DecodeM Unit
  | none => return ⟨⟩
  | some signature => do
      verifyChunkSignature K data signature
      modify fun s => { s with previousSignature := some signature }

/-- The check of a header's signature against the mode. -/
def signatureExpected : AwsChunkedMode → Option Digest32 → Except ChunkedError Unit
  | .signed _, none => .error .missingChunkSignature
  | .unsignedTrailer _, some _ => .error .unexpectedChunkSignature
  | _, _ => .ok ⟨⟩

/-! ## 4. Trailers -/

/-- The part of `accept_trailer` that only reads the line: name and value of the field. -/
def parseTrailer (line : Bytes) : Except ChunkedError (Bytes × Bytes) :=
  if line.head?.any isOws then .error .invalidTrailer
  else
    match splitOnce 58 line with
    | none => .error .invalidTrailer
    | some (name, rest) =>
        if name.isEmpty ∨ ¬ name.all fun b => isAsciiLowercase b || isAsciiDigit b || b = 45 then
          .error .invalidTrailer
        else
          let value := trimOws rest
          -- one line feed before the line end is accepted
          let value := if value.getLast? = some 10 then value.dropLast else value
          if value.isEmpty ∨ ¬ value.all isAsciiGraphic then .error .invalidTrailer
          else .ok (name, value)

def acceptTrailer (line : Bytes) : DecodeM Unit := do
  let s ← get
  match s.mode with
  | .signed _ => fail .unexpectedTrailer
  | .unsignedTrailer declaredTrailers =>
      if s.limits.maxTrailers ≤ s.trailers.length then fail .tooManyTrailers
      let (name, value) ← orFail (parseTrailer line)
      if s.trailers.any (·.name = name) then fail (.duplicateTrailer name)
      if name ∉ declaredTrailers then fail (.undeclaredTrailer name)
      modify fun s => { s with trailers := s.trailers ++ [⟨name, value⟩] }

/-- The checksum over everything decoded and the length of its base64 text. -/
def calculatedChecksum (K : Crates) (hashed name : Bytes) : Option (Bytes × Nat) :=
  if name = ascii "x-amz-checksum-crc32" then some (K.crc32 hashed, 8)
  else if name = ascii "x-amz-checksum-crc32c" then some (K.crc32c hashed, 8)
  else if name = ascii "x-amz-checksum-sha1" then some (K.sha1 hashed, 28)
  else if name = ascii "x-amz-checksum-sha256" then some (K.sha256 hashed, 44)
  else if name = ascii "x-amz-checksum-crc64nvme" then some (K.crc64nvme hashed, 12)
  else none

/-- The check of one declared trailer. -/
def checkTrailer (K : Crates) (hashed : Bytes) (trailers : List DecodedTrailer)
    (declared : Bytes) : Except ChunkedError Unit :=
  match trailers.find? (·.name = declared) with
  | none => .error (.missingTrailer declared)
  | some trailer =>
      match calculatedChecksum K hashed declared with
      | none => .error (.unsupportedChecksum declared)
      | some (expected, encodedLength) =>
          if trailer.value.length ≠ encodedLength then .error (.invalidChecksumEncoding declared)
          else
            match K.base64Decode trailer.value with
            | none => .error (.invalidChecksumEncoding declared)
            | some supplied =>
                if supplied.length ≠ expected.length then
                  .error (.invalidChecksumEncoding declared)
                else if supplied ≠ expected then .error (.checksumMismatch declared)
                else .ok ⟨⟩

def finishTrailers (K : Crates) (d : AwsChunkedDecoder) : Except ChunkedError Unit :=
  if d.limits.expectedDecodedLength.any (· ≠ d.decodedBytes) then
    .error (.decodedLengthMismatch (d.limits.expectedDecodedLength.getD 0) d.decodedBytes)
  else
    match d.mode with
    | .signed _ => if d.trailers.isEmpty then .ok ⟨⟩ else .error .unexpectedTrailer
    | .unsignedTrailer declaredTrailers =>
        declaredTrailers.forM (checkTrailer K d.hashed d.trailers)

/-! ## 5. The loop of `push` -/

/-- The round of the loop in the phases that work on lines. -/
def onLine (limit : Nat) (tooLarge : ChunkedError)
    (handle : Bytes → DecodeM (Option DecodeStatus)) : DecodeM (Option DecodeStatus) := do
  match ← takeLine limit tooLarge with
  | none => return some .needMore
  | some line => handle line

/-- What `Phase::Header` does with a line. -/
def headerLine (K : Crates) (line : Bytes) : DecodeM (Option DecodeStatus) := do
  let s ← get
  let (size, signature) ← orFail (parseChunkHeader line)
  if min s.limits.maxChunkBytes maxBufferedChunkBytes < size then fail .chunkTooLarge
  if 2 ^ 64 ≤ s.decodedBytes + size ∨ s.limits.exceeded (s.decodedBytes + size) then
    fail .decodedBodyTooLarge
  orFail (signatureExpected s.mode signature)
  if size = 0 then
    chainSignature K [] signature
    modify fun s => { s with phase := .trailers }
  else
    modify fun s =>
      { s with current := some ⟨size, [], signature, Nat.zero_le _⟩, phase := .data }
  return none

def headerPhase (K : Crates) : DecodeM (Option DecodeStatus) := do
  onLine (← get).limits.maxChunkHeaderBytes .headerTooLarge (headerLine K)

/-- The chunk with up to `count` more bytes of its data. -/
def CurrentChunk.receive (c : CurrentChunk) (available : Bytes) : CurrentChunk where
  size := c.size
  data := c.data ++ available.take (min (c.size - c.data.length) available.length)
  signature := c.signature
  fits := by
    have := c.fits
    simp only [List.length_append, List.length_take]
    omega

def dataPhase : DecodeM (Option DecodeStatus) := do
  let s ← get
  match s.current with
  | none => throw .panic
  | some current =>
      let remaining := current.size - current.data.length
      if s.available.length = 0 then return some .needMore
      let count := min remaining s.available.length
      let received := current.receive s.available
      modify fun s => { s with current := some received, offset := s.offset + count }
      if received.data.length = received.size then
        modify fun s => { s with phase := .dataCrlf }
      return none

/-- The release of a chunk behind its line end. -/
def releaseChunk (K : Crates) : DecodeM (Option DecodeStatus) := do
  match (← get).current with
  | none => throw .panic
  | some current =>
      modify fun s => { s with current := none }
      chainSignature K current.data current.signature
      acceptDecoded current.data
      modify fun s => { s with phase := .header }
      return none

def dataCrlfPhase (K : Crates) : DecodeM (Option DecodeStatus) := do
  let s ← get
  if s.available.length < 2 then return some .needMore
  if s.available.take 2 ≠ crlf then fail .missingChunkTerminator
  modify fun s => { s with offset := s.offset + 2 }
  releaseChunk K

/-- What `Phase::Trailers` does with a line; whether it was the last one. -/
def trailerLine (K : Crates) (line : Bytes) : DecodeM Bool := do
  let s ← get
  let trailerBytes := s.trailerBytes + (line.length + 2)
  if 2 ^ 64 ≤ trailerBytes then fail .trailerTooLarge
  modify fun s => { s with trailerBytes }
  if s.limits.maxTrailerBytes < trailerBytes then fail .trailerTooLarge
  if line.isEmpty then
    let s ← get
    orFail (finishTrailers K s.toAwsChunkedDecoder)
    modify fun s => { s with phase := .done }
    return true
  else
    acceptTrailer line
    return false

/-- The end of the body is the end of the input. -/
def endOfBody (last : Bool) : DecodeM (Option DecodeStatus) := do
  if last then
    if (← get).available ≠ [] then fail .inputAfterEnd
    return some .done
  else return none

def trailersPhase (K : Crates) : DecodeM (Option DecodeStatus) := do
  onLine (← get).limits.maxTrailerBytes .trailerTooLarge fun line => do
    endOfBody (← trailerLine K line)

/-- One round of the loop of `push`: `none` goes on, `some status` returns. -/
def decodeRound (K : Crates) : DecodeM (Option DecodeStatus) := do
  match (← get).phase with
  | .header => headerPhase K
  | .data => dataPhase
  | .dataCrlf => dataCrlfPhase K
  | .trailers => trailersPhase K
  | .done => return some .done

/-- What a round lowers: the bytes not consumed yet, and one step more while data is
    received, since the round that completes a chunk may find it complete already. -/
def Decoding.todo (s : Decoding) : Nat :=
  2 * s.available.length + if s.phase = .data then 1 else 0

@[simp] theorem wp_fail {α : Type} {Q : α → Decoding → Prop} {E : Fault → Decoding → Prop}
    {s : Decoding} (e : ChunkedError) : wp (fail e) Q E s = E (.error e) s := rfl

theorem wp_orFail {α : Type} {Q : α → Decoding → Prop} {E : Fault → Decoding → Prop}
    {s : Decoding} {r : Except ChunkedError α} (hok : ∀ a, r = .ok a → Q a s)
    (herror : ∀ e, E (.error e) s) : wp (orFail r) Q E s := by
  cases r with
  | ok a => exact hok a rfl
  | error e => exact herror e

theorem wp_takeLine {limit : Nat} {tooLarge : ChunkedError}
    {Q : Option Bytes → Decoding → Prop} {E : Fault → Decoding → Prop} {s : Decoding}
    (hnone : Q none s) (herror : E (.error tooLarge) s)
    (hline : ∀ line rest, s.available = line ++ crlf ++ rest → ¬ crlf <:+: line →
      Q (some line) { s with offset := s.offset + (line.length + 2) }) :
    wp (takeLine limit tooLarge) Q E s := by
  simp only [takeLine, wp_bind, wp_get]
  split
  · simp only [wp_ite, wp_fail, wp_pure]
    exact ⟨fun _ => herror, fun _ => hnone⟩
  · rename_i position hposition
    obtain ⟨heq, hle⟩ := crlfPosition_eq hposition
    have hlen : (s.available.take position).length = position := by
      rw [List.length_take]
      omega
    simp only [wp_ite, wp_fail, wp_bind, wp_modify, wp_pure]
    refine ⟨fun _ => herror, fun _ => ?_⟩
    have := hline _ _ heq (crlf_not_infix_take hposition)
    rwa [hlen] at this

section Specs

variable {Q : Unit → Decoding → Prop} {E : Fault → Decoding → Prop} {s : Decoding}

/-- A signature that was given is verified against its predecessor before it becomes the
    predecessor of the next. -/
theorem wp_chainSignature {K : Crates} {data : Bytes} {signature : Option Digest32}
    (hnone : signature = none → Q ⟨⟩ s)
    (hsome : ∀ context previous own, s.mode = .signed context →
      s.previousSignature = some previous → signature = some own →
      verifyHmac K context.signingKey.1 (chunkStringToSign K context previous data) own = true →
      Q ⟨⟩ { s with previousSignature := some own })
    (herror : ∀ e, E e s) : wp (chainSignature K data signature) Q E s := by
  cases signature with
  | none => exact hnone rfl
  | some own =>
    simp only [chainSignature, verifyChunkSignature, wp_bind, wp_get]
    split
    · exact herror _
    · rename_i context hmode
      split
      · exact herror _
      · rename_i previous hprevious
        simp only [wp_ite, wp_pure, wp_fail, wp_modify]
        exact ⟨fun h => hsome context previous own hmode hprevious rfl h, fun _ => herror _⟩

/-- Accepted data is counted, hashed and released; a failure releases nothing. -/
theorem wp_acceptDecoded {data : Bytes}
    (hok : Q ⟨⟩ { s with
      decodedBytes := s.decodedBytes + data.length
      hashed := s.hashed ++ data
      output := s.output ++ data })
    (herror : ∀ e n, E e { s with decodedBytes := n }) : wp (acceptDecoded data) Q E s := by
  simp only [acceptDecoded, wp_bind, wp_get, wp_ite, wp_fail, wp_modify]
  exact ⟨fun _ => herror _ s.decodedBytes, fun _ => ⟨fun _ => herror _ _, fun _ => hok⟩⟩

theorem wp_acceptTrailer {line : Bytes}
    (hok : ∀ declared trailers, s.mode = .unsignedTrailer declared → Q ⟨⟩ { s with trailers })
    (herror : ∀ e, E e s) : wp (acceptTrailer line) Q E s := by
  simp only [acceptTrailer, wp_bind, wp_get]
  split
  · exact herror _
  · rename_i declared hmode
    simp only [wp_bind, wp_ite, wp_fail]
    refine ⟨fun _ => herror _, fun _ => wp_orFail (fun parts _ => ?_) fun e => herror _⟩
    simp only [wp_bind, wp_ite, wp_fail, wp_modify]
    exact ⟨fun _ => herror _, fun _ => ⟨fun _ => herror _, fun _ => hok declared _ hmode⟩⟩

end Specs

section Rounds

variable {Q : Option DecodeStatus → Decoding → Prop} {E : Fault → Decoding → Prop}
  {s : Decoding} {K : Crates}

/-- **A round in the header phase** waits, fails with the output as it was, opens a chunk,
    or passes the final, empty chunk. -/
theorem wp_headerPhase
    (hwait : Q (some .needMore) s) (herror : ∀ e s', s'.output = s.output → E e s')
    (hopen : ∀ line rest size signature, s.available = line ++ crlf ++ rest →
      ¬ crlf <:+: line → parseChunkHeader line = .ok (size, signature) → 0 < size →
      signatureExpected s.mode signature = .ok ⟨⟩ →
      Q none { s with
        offset := s.offset + (line.length + 2)
        current := some ⟨size, [], signature, Nat.zero_le _⟩
        phase := .data })
    (hfinal : ∀ line rest signature previousSignature, s.available = line ++ crlf ++ rest →
      ¬ crlf <:+: line → parseChunkHeader line = .ok (0, signature) →
      signatureExpected s.mode signature = .ok ⟨⟩ →
      (∀ context, s.mode = .signed context → ∃ previous own,
        s.previousSignature = some previous ∧ signature = some own ∧
        verifyHmac K context.signingKey.1 (chunkStringToSign K context previous []) own = true) →
      Q none { s with
        offset := s.offset + (line.length + 2)
        previousSignature
        phase := .trailers }) :
    wp (headerPhase K) Q E s := by
  simp only [headerPhase, onLine, wp_bind, wp_get]
  refine wp_takeLine hwait (herror _ _ rfl) fun line rest havailable hline => ?_
  simp only [headerLine, wp_bind, wp_get]
  refine wp_orFail (fun header hheader => ?_) fun e => herror _ _ rfl
  obtain ⟨size, signature⟩ := header
  simp only [wp_bind, wp_ite, wp_fail]
  refine ⟨fun _ => herror _ _ rfl, fun _ => ⟨fun _ => herror _ _ rfl, fun _ => ?_⟩⟩
  refine wp_orFail (fun _ hexpected => ?_) fun e => herror _ _ rfl
  simp only [wp_bind, wp_ite, wp_modify, wp_pure]
  refine ⟨fun hzero => ?_, fun hpos => ?_⟩
  · subst hzero
    apply wp_chainSignature
    · intro hnone
      refine hfinal line rest _ _ havailable hline hheader hexpected fun context hmode => ?_
      rw [hmode, hnone] at hexpected
      cases hexpected
    · intro context previous own hmode hprevious hown hverified
      refine hfinal line rest _ _ havailable hline hheader hexpected fun context' hmode' => ?_
      cases hmode.symm.trans hmode'
      exact ⟨previous, own, hprevious, hown, hverified⟩
    · intro e
      exact herror _ _ rfl
  · exact hopen line rest size signature havailable hline hheader (Nat.pos_of_ne_zero hpos)
      hexpected

/-- **A round in the data phase** waits, or receives data; it fails only without a chunk. -/
theorem wp_dataPhase
    (hwait : Q (some .needMore) s) (hpanic : s.current = none → E .panic s)
    (hreceive : ∀ current, s.current = some current → 0 < s.available.length →
      Q none { s with
        current := some (current.receive s.available)
        offset := s.offset + min (current.size - current.data.length) s.available.length
        phase := if (current.receive s.available).data.length = (current.receive s.available).size
          then .dataCrlf else s.phase }) :
    wp dataPhase Q E s := by
  simp only [dataPhase, wp_bind, wp_get]
  split
  · rename_i hcurrent
    exact hpanic hcurrent
  · rename_i current hcurrent
    simp only [wp_bind, wp_ite, wp_pure, wp_modify]
    refine ⟨fun _ => hwait, fun havailable => ⟨fun hfull => ?_, fun hpart => ?_⟩⟩
    · have h := hreceive current hcurrent (Nat.pos_of_ne_zero havailable)
      rwa [if_pos hfull] at h
    · have h := hreceive current hcurrent (Nat.pos_of_ne_zero havailable)
      rwa [if_neg hpart] at h

/-- **A round at the end of a chunk** waits, fails with the output as it was, or releases
    the chunk: in signed mode only one whose signature was verified. -/
theorem wp_dataCrlfPhase
    (hwait : Q (some .needMore) s) (herror : ∀ e s', s'.output = s.output → E e s')
    (hrelease : ∀ current rest previousSignature, s.current = some current →
      s.available = crlf ++ rest →
      (current.signature = none ∧ previousSignature = s.previousSignature ∨
        ∃ context previous own, s.mode = .signed context ∧
          s.previousSignature = some previous ∧ current.signature = some own ∧
          verifyHmac K context.signingKey.1
            (chunkStringToSign K context previous current.data) own = true ∧
          previousSignature = some own) →
      Q none { s with
        offset := s.offset + 2
        current := none
        previousSignature
        decodedBytes := s.decodedBytes + current.data.length
        hashed := s.hashed ++ current.data
        output := s.output ++ current.data
        phase := .header }) :
    wp (dataCrlfPhase K) Q E s := by
  simp only [dataCrlfPhase, wp_bind, wp_get, wp_ite, wp_pure, wp_fail, wp_modify]
  refine ⟨fun _ => hwait, fun hlen => ⟨fun _ => herror _ _ rfl, fun hcrlf => ?_⟩⟩
  have havailable : s.available = crlf ++ s.available.drop 2 := by
    rw [← not_ne_iff.mp hcrlf, List.take_append_drop]
  simp only [releaseChunk, wp_bind, wp_get]
  split
  · exact herror _ _ rfl
  · rename_i current hcurrent
    simp only [wp_bind, wp_modify]
    apply wp_chainSignature
    · intro hnone
      rw [wp_bind]
      apply wp_acceptDecoded
      · exact hrelease current _ _ hcurrent havailable (.inl ⟨hnone, rfl⟩)
      · exact fun _ _ => herror _ _ rfl
    · intro context previous own hmode hprevious hown hverified
      rw [wp_bind]
      apply wp_acceptDecoded
      · exact hrelease current _ _ hcurrent havailable
          (.inr ⟨context, previous, own, hmode, hprevious, hown, hverified, rfl⟩)
      · exact fun _ _ => herror _ _ rfl
    · exact fun _ => herror _ _ rfl

/-- **A round in the trailers** waits, fails with the output as it was, takes a trailer in
    unsigned mode, or ends the body at an empty line with no input behind it. -/
theorem wp_trailersPhase
    (hwait : Q (some .needMore) s) (herror : ∀ e s', s'.output = s.output → E e s')
    (htrailer : ∀ line rest trailers trailerBytes declared,
      s.available = line ++ crlf ++ rest → s.mode = .unsignedTrailer declared →
      Q none { s with offset := s.offset + (line.length + 2), trailerBytes, trailers })
    (hdone : ∀ trailerBytes, s.available = crlf →
      Q (some .done) { s with offset := s.offset + 2, trailerBytes, phase := .done }) :
    wp (trailersPhase K) Q E s := by
  simp only [trailersPhase, onLine, wp_bind, wp_get]
  refine wp_takeLine hwait (herror _ _ rfl) fun line rest havailable hline => ?_
  simp only [trailerLine, wp_bind, wp_ite, wp_fail, wp_modify, wp_get]
  refine ⟨fun _ => herror _ _ rfl, fun _ => ⟨fun _ => herror _ _ rfl, fun _ => ⟨?_, ?_⟩⟩⟩
  · intro hempty
    have hline : line = [] := List.isEmpty_iff.mp hempty
    subst hline
    refine wp_orFail (fun _ _ => ?_) fun e => herror _ _ rfl
    simp only [endOfBody, wp_bind, wp_get, wp_ite, wp_fail, wp_modify, wp_pure, if_true]
    refine ⟨fun _ => herror _ _ rfl, fun hrest => ?_⟩
    have hend := not_ne_iff.mp hrest
    simp only [AwsChunkedDecoder.available, List.length_nil] at hend
    apply hdone
    rw [AwsChunkedDecoder.available] at havailable ⊢
    have hsplit : s.input.drop s.offset = crlf ++ s.input.drop (s.offset + 2) := by
      rw [← List.drop_drop, havailable]
      rfl
    rw [hsplit, hend, List.append_nil]
  · intro _
    apply wp_acceptTrailer
    · intro declared trailers hmode
      exact htrailer line rest trailers _ declared havailable hmode
    · exact fun _ => herror _ _ rfl

end Rounds

/-- **Every round that goes on lowers `todo`.** -/
theorem decodeRound_decreases (K : Crates) {s s' : Decoding}
    (h : decodeRound K s = (.ok none, s')) : s'.todo < s.todo := by
  have hround : wp (decodeRound K) (fun o s' => o = none → s'.todo < s.todo)
      (fun _ _ => True) s := by
    simp only [decodeRound, wp_bind, wp_get]
    have hlines : ∀ {line rest : Bytes}, s.available = line ++ crlf ++ rest →
        (s.input.drop (s.offset + (line.length + 2))).length + 2 ≤ s.available.length := by
      intro line rest havailable
      have hlen := congrArg List.length havailable
      simp only [AwsChunkedDecoder.available, List.length_append, List.length_drop, crlf,
        List.length_cons, List.length_nil] at hlen ⊢
      omega
    split
    · apply wp_headerPhase
      · intro hnone
        cases hnone
      · exact fun _ _ _ => trivial
      · intro line rest size signature havailable _ _ _ _ _
        have := hlines havailable
        simp only [Decoding.todo, AwsChunkedDecoder.available] at this ⊢
        simp only [if_true]
        omega
      · intro line rest signature previous havailable _ _ _ _ _
        have := hlines havailable
        simp only [Decoding.todo, AwsChunkedDecoder.available] at this ⊢
        simp only [reduceCtorEq, if_false]
        omega
    · rename_i hphase
      apply wp_dataPhase
      · intro hnone
        cases hnone
      · exact fun _ => trivial
      · intro current hcurrent havailable _
        have hfits := current.fits
        simp only [Decoding.todo, AwsChunkedDecoder.available, CurrentChunk.receive, hphase,
          List.length_append, List.length_take, List.length_drop] at havailable ⊢
        split
        · simp only [reduceCtorEq, if_false, if_true]
          omega
        · simp only [if_true]
          omega
    · apply wp_dataCrlfPhase
      · intro hnone
        cases hnone
      · exact fun _ _ _ => trivial
      · intro current rest previous _ havailable _ _
        have := @hlines [] rest havailable
        simp only [Decoding.todo, AwsChunkedDecoder.available, List.length_nil,
          Nat.zero_add] at this ⊢
        simp only [reduceCtorEq, if_false]
        omega
    · rename_i hphase
      apply wp_trailersPhase
      · intro hnone
        cases hnone
      · exact fun _ _ _ => trivial
      · intro line rest trailers trailerBytes declared havailable _ _
        have := hlines havailable
        simp only [Decoding.todo, AwsChunkedDecoder.available, hphase] at this ⊢
        simp only [reduceCtorEq, if_false]
        omega
      · intro _ _ hnone
        cases hnone
    · intro hnone
      cases hnone
  exact wp_run hround h rfl

/-! ## 6. The calls -/

/-- `compact`: give back the input that was consumed. -/
def Decoding.compact (s : Decoding) : Decoding :=
  if s.offset = s.input.length then { s with input := [], offset := 0 }
  else if 64 * 1024 < s.offset ∧ s.input.length / 2 < s.offset then
    { s with input := s.input.drop s.offset, offset := 0 }
  else s

/-- The start of a `push`: the new bytes behind those not consumed yet. -/
def Decoding.extend (s : Decoding) (bytes : Bytes) : Decoding :=
  { s.compact with input := s.compact.input ++ bytes }

def push (K : Crates) (bytes : Bytes) : DecodeM DecodeStatus := do
  if (← get).phase = .done then
    if bytes.isEmpty then return .done else fail .inputAfterEnd
  else
    modify (·.extend bytes)
    loop Decoding.todo (decodeRound K) (decodeRound_decreases K)

def finish : DecodeM Unit := do
  match (← get).phase with
  | .done => return ⟨⟩
  | .dataCrlf => fail .missingChunkTerminator
  | .trailers => fail .invalidTrailer
  | .header => fail .invalidChunkHeader
  | .data => fail .invalidChunkHeader

/-- The checksums a body may declare. -/
def supportedTrailers : List Bytes :=
  [ascii "x-amz-checksum-crc32", ascii "x-amz-checksum-crc32c", ascii "x-amz-checksum-sha1",
    ascii "x-amz-checksum-sha256", ascii "x-amz-checksum-crc64nvme"]

/-- The loop of `validate_declarations`, with the names before the current one. -/
def checkDeclarations : List Bytes → List Bytes → Except ChunkedError Unit
  | _, [] => .ok ⟨⟩
  | before, name :: rest =>
      if name ∉ supportedTrailers then .error (.unsupportedChecksum name)
      else if name ∈ before then .error (.duplicateTrailer name)
      else checkDeclarations (before ++ [name]) rest

def validateDeclarations (declared : List Bytes) : Except ChunkedError Unit :=
  if declared.isEmpty then .error (.missingTrailer (ascii "x-amz-trailer"))
  else checkDeclarations [] declared

/-- The first signature that a chunk is chained to. -/
def AwsChunkedMode.previousSignature : AwsChunkedMode → Option Digest32
  | .signed context => some context.seedSignature
  | .unsignedTrailer _ => none

def AwsChunkedDecoder.initial (mode : AwsChunkedMode) (limits : ChunkedLimits) :
    AwsChunkedDecoder where
  mode := mode
  limits := limits
  phase := .header
  input := []
  offset := 0
  current := none
  decodedBytes := 0
  hashed := []
  trailers := []
  trailerBytes := 0
  previousSignature := mode.previousSignature

def AwsChunkedDecoder.new (mode : AwsChunkedMode) (limits : ChunkedLimits) :
    Except ChunkedError AwsChunkedDecoder := do
  match mode with
  | .signed _ => return .initial mode limits
  | .unsignedTrailer declaredTrailers =>
      validateDeclarations declaredTrailers
      return .initial mode limits

end Pgs3.Protocol
