import Pgs3.Foundation.Scanner
import Pgs3.Protocol.AwsChunkedGrammar
import Pgs3.Protocol.Http

/-!
# Chunked transfer coding

`HttpChunkedDecoder` of `workers/http.rs`, which takes the body of a request out of its
transfer coding.  The lines are read byte by byte, the data of a chunk in one go with what is
there of it.

The decoder is compared with a scanner that reads everything byte by byte (`byteScanner`).
That the fragments of the input make no difference is then a fact about scanners, and that
encoded bodies are decoded is proved about the scanner.
-/

namespace Pgs3.Workers

open Pgs3 Pgs3.Protocol Foundation

/-! ## 1. The decoder -/

def maxHttpBodyBytes : Nat := 5 * 1024 * 1024 * 1024

def maxHttpWireBytes : Nat := maxHttpBodyBytes + 256 * 1024 * 1024

def maxChunkLineBytes : Nat := 8 * 1024

def maxTrailerLineBytes : Nat := 16 * 1024

def maxTrailerBytes : Nat := 64 * 1024

def maxTrailers : Nat := 100

inductive FramingError where
  | entityTooLarge
  | invalidChunk
  | invalidTrailer
  | tooMuchFraming
deriving DecidableEq, Repr

structure DecodeProgress where
  consumed : Nat
  complete : Bool
deriving DecidableEq, Repr

/-- A chunk is received as long as some of its data is missing. -/
inductive ChunkState where
  | sizeLine (line : Bytes)
  | data (remaining : Nat) (missing : 0 < remaining)
  | dataCrLf (seen : Nat)
  | trailerLine (line : Bytes)
  | complete
deriving DecidableEq

structure HttpChunkedDecoder where
  state : ChunkState
  wireBytes : Nat
  decodedBytes : Nat
  trailerBytes : Nat
  trailers : Nat
deriving DecidableEq

def HttpChunkedDecoder.new : HttpChunkedDecoder where
  state := .sizeLine []
  wireBytes := 0
  decodedBytes := 0
  trailerBytes := 0
  trailers := 0

def HttpChunkedDecoder.isComplete (d : HttpChunkedDecoder) : Bool := d.state = .complete

def chargeWire (wireBytes count : Nat) : Except FramingError Nat :=
  if 2 ^ 64 ≤ wireBytes + count then .error .tooMuchFraming
  else if maxHttpWireBytes < wireBytes + count then .error .tooMuchFraming
  else .ok (wireBytes + count)

def trimLeftOws (bytes : Bytes) : Bytes := bytes.dropWhile isOws

/-- A byte that stands for itself between quotes. -/
def isQuotedText (byte : UInt8) : Bool :=
  byte = 9 || (32 ≤ byte && byte ≤ 33) || (35 ≤ byte && byte ≤ 91) ||
    (93 ≤ byte && byte ≤ 126) || 128 ≤ byte

/-- A byte that may stand behind a backslash. -/
def isEscapable (byte : UInt8) : Bool :=
  byte = 9 || (32 ≤ byte && byte ≤ 126) || 128 ≤ byte

/-- The loop behind an opening quote; what stands behind the closing one. -/
def quotedRest : Bytes → Except FramingError Bytes
  | [] => .error .invalidChunk
  | byte :: bytes =>
      if byte = 34 then .ok bytes
      else if byte = 92 then
        match bytes with
        | [] => .error .invalidChunk
        | escaped :: bytes => if isEscapable escaped then quotedRest bytes else .error .invalidChunk
      else if isQuotedText byte then quotedRest bytes
      else .error .invalidChunk

/-- The value of an extension, a token or a quoted string; what stands behind it. -/
def extensionValue (bytes : Bytes) : Except FramingError Bytes :=
  if bytes.head? = some 34 then (quotedRest bytes.tail).map trimLeftOws
  else if (bytes.takeWhile isTchar).isEmpty then .error .invalidChunk
  else .ok (trimLeftOws (bytes.dropWhile isTchar))

/-- The value behind `=` where there is one. -/
def optionalValue (bytes : Bytes) : Except FramingError Bytes :=
  if bytes.head? = some 61 then extensionValue (trimLeftOws bytes.tail) else .ok bytes

/-- One turn of the loop of `validate_chunk_extensions`. -/
def chunkExtension : Bytes → Except FramingError Bytes
  | [] => .ok []
  | byte :: bytes =>
      let bytes := trimLeftOws bytes
      if byte ≠ 59 then .error .invalidChunk
      else if (bytes.takeWhile isTchar).isEmpty then .error .invalidChunk
      else
        match optionalValue (trimLeftOws (bytes.dropWhile isTchar)) with
        | .error e => .error e
        | .ok bytes =>
            if bytes ≠ [] ∧ bytes.head? ≠ some 59 then .error .invalidChunk else .ok bytes

theorem trimLeftOws_length (bytes : Bytes) : (trimLeftOws bytes).length ≤ bytes.length :=
  (List.dropWhile_suffix _).length_le

variable {bytes : Bytes}

theorem quotedRest_length {rest : Bytes} (h : quotedRest bytes = .ok rest) :
    rest.length < bytes.length := by
  fun_induction quotedRest bytes with
  | case1 => cases h
  | case2 bytes =>
    cases h
    simp
  | case3 => cases h
  | case4 escaped bytes hne hok ih =>
    have := ih h
    simp only [List.length_cons]
    omega
  | case5 => cases h
  | case6 byte bytes hquote hslash hok ih =>
    have := ih h
    simp only [List.length_cons]
    omega
  | case7 => cases h

theorem extensionValue_length {rest : Bytes} (h : extensionValue bytes = .ok rest) :
    rest.length ≤ bytes.length := by
  unfold extensionValue at h
  split at h
  · cases hquoted : quotedRest bytes.tail with
    | error e =>
      rw [hquoted] at h
      cases h
    | ok behind =>
      rw [hquoted] at h
      cases h
      have hbehind := quotedRest_length hquoted
      have htrim := trimLeftOws_length behind
      rw [List.length_tail] at hbehind
      omega
  · split at h
    · cases h
    · cases h
      have hdrop := (List.dropWhile_suffix (p := isTchar) (l := bytes)).length_le
      exact (trimLeftOws_length _).trans hdrop

theorem optionalValue_length {rest : Bytes} (h : optionalValue bytes = .ok rest) :
    rest.length ≤ bytes.length := by
  unfold optionalValue at h
  split at h
  · have hvalue := extensionValue_length h
    have htrim := trimLeftOws_length bytes.tail
    rw [List.length_tail] at htrim
    omega
  · cases h
    exact Nat.le_refl _

theorem chunkExtension_length {rest : Bytes} (h : chunkExtension bytes = .ok rest)
    (hne : bytes ≠ []) : rest.length < bytes.length := by
  cases bytes with
  | nil => exact absurd rfl hne
  | cons byte bytes =>
    have hname := trimLeftOws_length ((trimLeftOws bytes).dropWhile isTchar)
    have hdrop := (List.dropWhile_suffix (p := isTchar) (l := trimLeftOws bytes)).length_le
    have htrim := trimLeftOws_length bytes
    rw [List.length_cons]
    simp only [chunkExtension] at h
    split at h
    · cases h
    · split at h
      · cases h
      · split at h
        · cases h
        · rename_i behind hvalue
          have hlength := optionalValue_length hvalue
          split at h
          · cases h
          · cases h
            omega

def validateChunkExtensions (bytes : Bytes) : Except FramingError Unit :=
  if _hne : bytes = [] then .ok ⟨⟩
  else
    match _hturn : chunkExtension bytes with
    | .error e => .error e
    | .ok rest => validateChunkExtensions rest
termination_by bytes.length
decreasing_by exact chunkExtension_length _hturn _hne

def hexDigit (byte : UInt8) : Option Nat :=
  if 48 ≤ byte && byte ≤ 57 then some (byte.toNat - 48)
  else if 97 ≤ byte && byte ≤ 102 then some (byte.toNat - 97 + 10)
  else if 65 ≤ byte && byte ≤ 70 then some (byte.toNat - 65 + 10)
  else none

/-- The loop over the digits of a size. -/
def chunkSize : Bytes → Nat → Except FramingError Nat
  | [], size => .ok size
  | byte :: bytes, size =>
      match hexDigit byte with
      | none => .error .invalidChunk
      | some digit =>
          if 2 ^ 64 ≤ size * 16 ∨ 2 ^ 64 ≤ size * 16 + digit then .error .entityTooLarge
          else chunkSize bytes (size * 16 + digit)

def parseChunkSizeLine (line : Bytes) : Except FramingError Nat :=
  let sizeBytes := line.takeWhile (· ≠ 59)
  if sizeBytes.isEmpty ∨ 16 < sizeBytes.length then .error .invalidChunk
  else
    match chunkSize sizeBytes 0 with
    | .error e => .error e
    | .ok size =>
        -- a line without a semicolon has no extensions to check
        match validateChunkExtensions (line.dropWhile (· ≠ 59)) with
        | .error e => .error e
        | .ok _ => .ok size

def validateTrailerLine (line : Bytes) : Except FramingError Unit :=
  if line.head?.any isOws then .error .invalidTrailer
  else
    match splitOnce 58 line with
    | none => .error .invalidTrailer
    | some (name, value) =>
        if name.isEmpty ∨ ¬ name.all isTchar then .error .invalidTrailer
        else if ¬ validFieldValue value then .error .invalidTrailer
        else .ok ⟨⟩

def ChunkState.ofSize (size : Nat) : ChunkState :=
  if h : size = 0 then .trailerLine [] else .data size (Nat.pos_of_ne_zero h)

def ChunkState.missing (remaining : Nat) : ChunkState :=
  if h : remaining = 0 then .dataCrLf 0 else .data remaining (Nat.pos_of_ne_zero h)

/-- The byte of the line end that is expected behind the data. -/
def crLfByte (seen : Nat) : UInt8 := if seen = 0 then 13 else 10

/-- A round of the loop of `push` with `byte :: rest` before it: the decoder, the bytes decoded
    and how many were read. -/
def HttpChunkedDecoder.round (d : HttpChunkedDecoder) (byte : UInt8) (rest : Bytes) :
    Except FramingError (HttpChunkedDecoder × Bytes × Nat) :=
  match d.state with
  | .sizeLine line =>
      match chargeWire d.wireBytes 1 with
      | .error e => .error e
      | .ok wireBytes =>
          if byte = 10 then
            if line.getLast? ≠ some 13 then .error .invalidChunk
            else
              match parseChunkSizeLine line.dropLast with
              | .error e => .error e
              | .ok size =>
                  if 2 ^ 64 ≤ d.decodedBytes + size then .error .entityTooLarge
                  else if maxHttpBodyBytes < d.decodedBytes + size then .error .entityTooLarge
                  else .ok ({ d with wireBytes, state := .ofSize size }, [], 1)
          else if line.getLast? = some 13 ∨ maxChunkLineBytes ≤ line.length then
            .error .invalidChunk
          else .ok ({ d with wireBytes, state := .sizeLine (line ++ [byte]) }, [], 1)
  | .data remaining _ =>
      let count := min remaining (byte :: rest).length
      match chargeWire d.wireBytes count with
      | .error e => .error e
      | .ok wireBytes =>
          .ok ({ d with
            wireBytes
            decodedBytes := d.decodedBytes + count
            state := .missing (remaining - count) }, (byte :: rest).take count, count)
  | .dataCrLf seen =>
      match chargeWire d.wireBytes 1 with
      | .error e => .error e
      | .ok wireBytes =>
          if byte ≠ crLfByte seen then .error .invalidChunk
          else .ok ({ d with
            wireBytes
            state := if seen + 1 = 2 then .sizeLine [] else .dataCrLf (seen + 1) }, [], 1)
  | .trailerLine line =>
      match chargeWire d.wireBytes 1 with
      | .error e => .error e
      | .ok wireBytes =>
          let trailerBytes := d.trailerBytes + 1
          if 2 ^ 64 ≤ trailerBytes then .error .tooMuchFraming
          else if maxTrailerBytes < trailerBytes then .error .tooMuchFraming
          else if byte = 10 then
            if line.getLast? ≠ some 13 then .error .invalidTrailer
            else if line.dropLast.isEmpty then
              .ok ({ d with wireBytes, trailerBytes, state := .complete }, [], 1)
            else
              match validateTrailerLine line.dropLast with
              | .error e => .error e
              | .ok _ =>
                  if maxTrailers < d.trailers + 1 then .error .tooMuchFraming
                  else .ok ({ d with
                    wireBytes, trailerBytes
                    trailers := d.trailers + 1
                    state := .trailerLine [] }, [], 1)
          else if line.getLast? = some 13 ∨ maxTrailerLineBytes ≤ line.length then
            .error .invalidTrailer
          else .ok ({ d with wireBytes, trailerBytes, state := .trailerLine (line ++ [byte]) }, [], 1)
  | .complete => .ok (d, [], 0)

theorem HttpChunkedDecoder.round_byte {d : HttpChunkedDecoder} (byte : UInt8) (rest : Bytes)
    (hdata : ∀ remaining missing, d.state ≠ .data remaining missing) :
    d.round byte rest = d.round byte [] := by
  unfold round
  cases hstate : d.state with
  | data remaining missing => exact absurd hstate (hdata remaining missing)
  | sizeLine line => rfl
  | dataCrLf seen => rfl
  | trailerLine line => rfl
  | complete => rfl

variable {d' : HttpChunkedDecoder} {count : Nat}

theorem HttpChunkedDecoder.round_one {d : HttpChunkedDecoder} {byte : UInt8}
    (hcomplete : d.isComplete = false) (h : d.round byte [] = .ok (d', bytes, count)) :
    count = 1 := by
  unfold round at h
  cases hstate : d.state with
  | data remaining missing =>
    simp only [hstate] at h
    split at h
    · cases h
    · cases h
      change min remaining 1 = 1
      omega
  | complete => simp [isComplete, hstate] at hcomplete
  | sizeLine | dataCrLf | trailerLine =>
    -- an error, or one byte, in every branch
    simp only [hstate] at h
    repeat' split at h
    all_goals cases h
    all_goals rfl

theorem HttpChunkedDecoder.round_count {d : HttpChunkedDecoder} {byte : UInt8} {rest : Bytes}
    (hcomplete : d.isComplete = false) (h : d.round byte rest = .ok (d', bytes, count)) :
    0 < count := by
  by_cases hdata : ∃ remaining missing, d.state = .data remaining missing
  · obtain ⟨remaining, missing, hstate⟩ := hdata
    simp only [round, hstate] at h
    split at h
    · cases h
    · cases h
      exact Nat.lt_min.mpr ⟨missing, Nat.succ_pos _⟩
  · have hbyte := round_byte (d := d) byte rest fun remaining missing hstate =>
      hdata ⟨remaining, missing, hstate⟩
    rw [hbyte] at h
    rw [round_one hcomplete h]
    exact Nat.one_pos

/-- The loop of `push`, with the bytes decoded and the offset so far. -/
def HttpChunkedDecoder.pushLoop (d : HttpChunkedDecoder) (decoded : Bytes) (offset : Nat)
    (input : Bytes) : Except FramingError (HttpChunkedDecoder × Bytes × DecodeProgress) :=
  match input with
  | [] => .ok (d, decoded, ⟨offset, d.isComplete⟩)
  | byte :: rest =>
      if _hcomplete : d.isComplete = true then .ok (d, decoded, ⟨offset, d.isComplete⟩)
      else
        match _hround : d.round byte rest with
        | .error e => .error e
        | .ok (d', bytes, count) =>
            d'.pushLoop (decoded ++ bytes) (offset + count) ((byte :: rest).drop count)
termination_by input.length
decreasing_by
  have := HttpChunkedDecoder.round_count (Bool.not_eq_true _ ▸ _hcomplete) _hround
  simp only [List.length_drop, List.length_cons]
  omega

/-- `push`: the decoder, what was decoded, and how far it got. -/
def HttpChunkedDecoder.push (d : HttpChunkedDecoder) (input : Bytes) :
    Except FramingError (HttpChunkedDecoder × Bytes × DecodeProgress) :=
  d.pushLoop [] 0 input

/-! ## 2. Byte by byte -/

/-- The decoder that gets one byte at a time. -/
def byteScanner : Scanner HttpChunkedDecoder FramingError UInt8 UInt8 where
  halted := HttpChunkedDecoder.isComplete
  step d byte :=
    match d.round byte [] with
    | .error e => .error e
    | .ok (d', bytes, _) => .ok (d', bytes)

theorem chargeWire_eq (wireBytes count : Nat) :
    chargeWire wireBytes count
      = if maxHttpWireBytes < wireBytes + count then .error .tooMuchFraming
        else .ok (wireBytes + count) := by
  have hmax : maxHttpWireBytes < 2 ^ 64 := by decide
  unfold chargeWire
  split
  · rw [if_pos (by omega)]
  · rfl

theorem scan_data {d : HttpChunkedDecoder} {remaining : Nat} {missing : 0 < remaining}
    (hstate : d.state = .data remaining missing) (hne : bytes ≠ [])
    (hle : bytes.length ≤ remaining) :
    byteScanner.scan d bytes =
      if maxHttpWireBytes < d.wireBytes + bytes.length then .error .tooMuchFraming
      else .ok ({ d with
        wireBytes := d.wireBytes + bytes.length
        decodedBytes := d.decodedBytes + bytes.length
        state := .missing (remaining - bytes.length) }, bytes, bytes.length) := by
  induction bytes generalizing d remaining with
  | nil => exact absurd rfl hne
  | cons byte bytes ih =>
    have hhalted : byteScanner.halted d = false := by
      simp [byteScanner, HttpChunkedDecoder.isComplete, hstate]
    have hone : min remaining [byte].length = 1 := by
      change min remaining 1 = 1
      omega
    have hread : byteScanner.read d byte =
        if maxHttpWireBytes < d.wireBytes + 1 then .error .tooMuchFraming
        else .ok ({ d with
          wireBytes := d.wireBytes + 1
          decodedBytes := d.decodedBytes + 1
          state := .missing (remaining - 1) }, [byte], 1) := by
      simp only [Scanner.read, byteScanner, HttpChunkedDecoder.round, hstate, hone, chargeWire_eq]
      by_cases hfirst : maxHttpWireBytes < d.wireBytes + 1
      · simp only [hfirst, if_true]
      · simp only [hfirst, if_false]
        rfl
    rw [byteScanner.scan_cons hhalted, hread]
    rw [List.length_cons] at hle ⊢
    by_cases hfirst : maxHttpWireBytes < d.wireBytes + 1
    · rw [if_pos hfirst, if_pos (by omega)]
      rfl
    · rw [if_neg hfirst]
      cases bytes with
      | nil =>
        rw [List.length_nil, Nat.zero_add, if_neg hfirst]
        rfl
      | cons byte' bytes =>
        have hmore : remaining - 1 ≠ 0 := by
          simp only [List.length_cons] at hle
          omega
        have hstate' : ChunkState.missing (remaining - 1)
            = .data (remaining - 1) (Nat.pos_of_ne_zero hmore) := dif_neg hmore
        have hnext := ih (d := { d with
            wireBytes := d.wireBytes + 1
            decodedBytes := d.decodedBytes + 1
            state := .missing (remaining - 1) }) hstate' (List.cons_ne_nil _ _) (by omega)
        simp only [Scanner.Reading.andThen, hnext]
        have hsum : d.wireBytes + 1 + (byte' :: bytes).length
            = d.wireBytes + ((byte' :: bytes).length + 1) := by omega
        rw [hsum]
        by_cases hmax : maxHttpWireBytes < d.wireBytes + ((byte' :: bytes).length + 1)
        · simp only [hmax, if_true]
        · have hdecoded : d.decodedBytes + 1 + (byte' :: bytes).length
              = d.decodedBytes + ((byte' :: bytes).length + 1) := by omega
          have hremaining : remaining - 1 - (byte' :: bytes).length
              = remaining - ((byte' :: bytes).length + 1) := by omega
          simp only [hmax, if_false, hdecoded, hremaining, Nat.add_comm 1]
          rfl

def progress (decoded : Bytes) (offset : Nat)
    (reading : Scanner.Reading HttpChunkedDecoder FramingError UInt8) :
    Except FramingError (HttpChunkedDecoder × Bytes × DecodeProgress) :=
  match reading with
  | .error e => .error e
  | .ok (d, out, count) => .ok (d, decoded ++ out, ⟨offset + count, d.isComplete⟩)

theorem progress_andThen {d : HttpChunkedDecoder} {out decoded : Bytes} {offset : Nat}
    (next : HttpChunkedDecoder → Scanner.Reading HttpChunkedDecoder FramingError UInt8) :
    progress decoded offset (Scanner.Reading.andThen (.ok (d, out, count)) next)
      = progress (decoded ++ out) (offset + count) (next d) := by
  simp only [Scanner.Reading.andThen]
  rcases next d with e | ⟨d', out', count'⟩
  · rfl
  · simp only [progress, List.append_assoc, Nat.add_assoc]

section Loop

variable {d : HttpChunkedDecoder} {decoded : Bytes} {offset : Nat} {byte : UInt8} {rest : Bytes}

theorem pushLoop_error {e : FramingError} (hcomplete : d.isComplete = false)
    (hround : d.round byte rest = .error e) :
    d.pushLoop decoded offset (byte :: rest) = .error e := by
  rw [HttpChunkedDecoder.pushLoop, dif_neg (by rw [hcomplete]; decide)]
  split <;> rename_i hround' <;> rw [hround] at hround' <;> cases hround'
  rfl

theorem pushLoop_ok (hcomplete : d.isComplete = false)
    (hround : d.round byte rest = .ok (d', bytes, count)) : d.pushLoop decoded offset (byte :: rest)
      = d'.pushLoop (decoded ++ bytes) (offset + count) ((byte :: rest).drop count) := by
  rw [HttpChunkedDecoder.pushLoop, dif_neg (by rw [hcomplete]; decide)]
  split <;> rename_i hround' <;> rw [hround] at hround' <;> cases hround'
  rfl

theorem pushLoop_complete (hcomplete : d.isComplete = true) (input : Bytes) :
    d.pushLoop decoded offset input = .ok (d, decoded, ⟨offset, d.isComplete⟩) := by
  unfold HttpChunkedDecoder.pushLoop
  cases input with
  | nil => rfl
  | cons byte rest => exact dif_pos hcomplete

theorem scan_round (hcomplete : d.isComplete = false) :
    byteScanner.scan d (byte :: rest) =
      match d.round byte rest with
      | .error e => .error e
      | .ok (d', bytes, count) => Scanner.Reading.andThen (.ok (d', bytes, count)) fun d₁ =>
          byteScanner.scan d₁ ((byte :: rest).drop count) := by
  by_cases hdata : ∃ remaining missing, d.state = .data remaining missing
  · obtain ⟨remaining, missing, hstate⟩ := hdata
    -- what is taken in one go, and the rest of the input
    have hlength : ((byte :: rest).take (min remaining (byte :: rest).length)).length
        = min remaining (byte :: rest).length := by
      rw [List.length_take]
      omega
    have hne : (byte :: rest).take (min remaining (byte :: rest).length) ≠ [] := by
      apply List.ne_nil_of_length_pos
      rw [hlength]
      exact Nat.lt_min.mpr ⟨missing, Nat.succ_pos _⟩
    have htaken := scan_data hstate hne (by rw [hlength]; exact Nat.min_le_left _ _)
    rw [hlength] at htaken
    nth_rewrite 1 [← List.take_append_drop (min remaining (byte :: rest).length) (byte :: rest)]
    rw [byteScanner.scan_append, htaken]
    simp only [HttpChunkedDecoder.round, hstate, chargeWire_eq]
    by_cases hmax : maxHttpWireBytes < d.wireBytes + min remaining (byte :: rest).length
    · simp only [hmax, if_true]
      rfl
    · simp only [hmax, if_false]
  · have hbyte := d.round_byte byte rest fun remaining missing hstate =>
      hdata ⟨remaining, missing, hstate⟩
    rw [byteScanner.scan_cons hcomplete, Scanner.read, hbyte]
    simp only [byteScanner]
    rcases hround : d.round byte [] with e | ⟨d', bytes, count⟩
    · rfl
    · rw [HttpChunkedDecoder.round_one hcomplete hround]
      rfl

end Loop

/-- **The loop** reads as the scanner does. -/
theorem pushLoop_eq_scan (d : HttpChunkedDecoder) (decoded : Bytes) (offset : Nat) (input : Bytes) :
    d.pushLoop decoded offset input = progress decoded offset (byteScanner.scan d input) := by
  -- the input that is left carries the induction, as it carries the termination of the loop
  induction hn : input.length using Nat.strongRecOn generalizing d decoded offset input with
  | ind n ih =>
    cases hcomplete : d.isComplete with
    | true =>
      rw [pushLoop_complete hcomplete, byteScanner.scan_halted hcomplete]
      simp [Scanner.still, progress]
    | false =>
      cases input with
      | nil => simp [HttpChunkedDecoder.pushLoop, Scanner.scan, Scanner.still, progress]
      | cons byte rest =>
        rw [scan_round hcomplete]
        rcases hround : d.round byte rest with e | ⟨d', bytes, count⟩
        · rw [pushLoop_error hcomplete hround]
          rfl
        · have hcount := HttpChunkedDecoder.round_count hcomplete hround
          have hshorter : ((byte :: rest).drop count).length < n := by
            rw [List.length_drop, ← hn, List.length_cons]
            omega
          rw [pushLoop_ok hcomplete hround, ih _ hshorter _ _ _ _ rfl, progress_andThen]

/-- **A call of `push`** reads as the scanner does. -/
theorem push_eq_scan (d : HttpChunkedDecoder) (input : Bytes) :
    d.push input = progress [] 0 (byteScanner.scan d input) := pushLoop_eq_scan d [] 0 input

/-- A call of `push` as a reading. -/
def HttpChunkedDecoder.reading (d : HttpChunkedDecoder) (input : Bytes) :
    Scanner.Reading HttpChunkedDecoder FramingError UInt8 :=
  match d.push input with
  | .error e => .error e
  | .ok (d', decoded, progress) => .ok (d', decoded, progress.consumed)

theorem reading_eq_scan (d : HttpChunkedDecoder) (input : Bytes) :
    d.reading input = byteScanner.scan d input := by
  unfold HttpChunkedDecoder.reading
  rw [push_eq_scan]
  rcases byteScanner.scan d input with e | ⟨d', out, count⟩
  · rfl
  · simp [progress]

/-- What comes of a new decoder and these fragments, pushed up to the first error: all that was
    decoded, how much was consumed, and whether the body is complete. -/
def transcript (fragments : List Bytes) : Except FramingError (Bytes × DecodeProgress) :=
  match Scanner.feed HttpChunkedDecoder.reading .new fragments with
  | .error e => .error e
  | .ok (d, decoded, consumed) => .ok (decoded, ⟨consumed, d.isComplete⟩)

/-- **Fragments make no difference.** -/
theorem transcript_flatten {fragments fragments' : List Bytes}
    (h : fragments.flatten = fragments'.flatten) : transcript fragments = transcript fragments' := by
  unfold transcript
  rw [byteScanner.feed_eq reading_eq_scan, byteScanner.feed_eq reading_eq_scan, h]

/-! ## 3. Extensions and trailers -/

/-- A byte between quotes, as it stands or behind a backslash. -/
inductive QuotedByte where
  | plain (byte : UInt8)
  | escaped (byte : UInt8)

def QuotedByte.text : QuotedByte → Bytes
  | plain byte => [byte]
  | escaped byte => [92, byte]

def QuotedByte.Allowed : QuotedByte → Prop
  | plain byte => isQuotedText byte = true
  | escaped byte => isEscapable byte = true

inductive ExtensionValue where
  | token (bytes : Bytes)
  | quoted (bytes : List QuotedByte)

def ExtensionValue.text : ExtensionValue → Bytes
  | token bytes => bytes
  | quoted bytes => 34 :: (bytes.flatMap QuotedByte.text ++ [34])

def ExtensionValue.WellFormed : ExtensionValue → Prop
  | token bytes => bytes ≠ [] ∧ bytes.all isTchar = true
  | quoted bytes => ∀ b ∈ bytes, b.Allowed

/-- `;name` or `;name=value`, with blanks where they are allowed. -/
structure ChunkExtension where
  lead : Bytes
  name : Bytes
  trail : Bytes
  value : Option (Bytes × ExtensionValue × Bytes)

namespace ChunkExtension

/-- The value with the equals sign and the blanks around it. -/
def valueText : Option (Bytes × ExtensionValue × Bytes) → Bytes
  | none => []
  | some (lead, value, trail) => 61 :: (lead ++ (value.text ++ trail))

def text (e : ChunkExtension) : Bytes :=
  59 :: (e.lead ++ (e.name ++ (e.trail ++ valueText e.value)))

structure WellFormed (e : ChunkExtension) : Prop where
  lead : e.lead.all isOws = true
  name_nonempty : e.name ≠ []
  name : e.name.all isTchar = true
  trail : e.trail.all isOws = true
  value : ∀ v ∈ e.value, v.1.all isOws = true ∧ v.2.1.WellFormed ∧ v.2.2.all isOws = true

end ChunkExtension

/-- The end of the line, or the next extension. -/
def Closes (bytes : Bytes) : Prop := ∀ b ∈ bytes.head?, b = 59

section Extensions

theorem tchar_byte {b : UInt8} (h : isTchar b = true) :
    isOws b = false ∧ b ≠ 34 ∧ b ≠ 59 ∧ b ≠ 61 ∧ b ≠ 58 ∧ b ≠ 10 ∧ b ≠ 13 := by
  have hall : ∀ b, decide (isTchar b = true → isOws b = false ∧ b ≠ 34 ∧ b ≠ 59 ∧ b ≠ 61 ∧
      b ≠ 58 ∧ b ≠ 10 ∧ b ≠ 13) = true := forall_byte (by decide +kernel)
  exact of_decide_eq_true (hall b) h

theorem ows_byte {b : UInt8} (h : isOws b = true) : isTchar b = false ∧ b ≠ 10 ∧ b ≠ 13 := by
  have hall : ∀ b, decide (isOws b = true → isTchar b = false ∧ b ≠ 10 ∧ b ≠ 13) = true :=
    forall_byte (by decide +kernel)
  exact of_decide_eq_true (hall b) h

theorem trimLeftOws_append {lead rest : Bytes} (hlead : lead.all isOws = true)
    (hrest : ∀ b ∈ rest.head?, isOws b = false) : trimLeftOws (lead ++ rest) = rest := by
  apply dropWhile_ows hlead
  cases rest with
  | nil => rfl
  | cons b rest => exact hrest b rfl

theorem token_append {name rest : Bytes} (hname : name.all isTchar = true)
    (hrest : ∀ b ∈ rest.head?, isTchar b = false) :
    (name ++ rest).takeWhile isTchar = name ∧ (name ++ rest).dropWhile isTchar = rest := by
  have hall : ∀ b ∈ name, isTchar b = true := List.all_eq_true.mp hname
  rw [List.takeWhile_append_of_pos hall, List.dropWhile_append_of_pos hall]
  cases rest with
  | nil => simp
  | cons b rest =>
    have hb := hrest b rfl
    simp [hb]

theorem head_of_all {rest : Bytes} {p : UInt8 → Bool} (hne : bytes ≠ [])
    (hall : bytes.all p = true) : ∀ b ∈ (bytes ++ rest).head?, p b = true := by
  cases bytes with
  | nil => exact absurd rfl hne
  | cons a bytes =>
    intro b hb
    cases hb
    exact List.all_eq_true.mp hall a List.mem_cons_self

theorem head_of_blanks {blanks rest : Bytes} {p : UInt8 → Prop} (hblanks : blanks.all isOws = true)
    (hows : ∀ b, isOws b = true → p b) (hrest : ∀ b ∈ rest.head?, p b) :
    ∀ b ∈ (blanks ++ rest).head?, p b := by
  cases blanks with
  | nil => exact hrest
  | cons a blanks =>
    intro b hb
    cases hb
    exact hows a (List.all_eq_true.mp hblanks a List.mem_cons_self)

theorem Closes.not_ows {rest : Bytes} (h : Closes rest) : ∀ b ∈ rest.head?, isOws b = false := by
  intro b hb
  rw [h b hb]
  decide

theorem Closes.not_tchar {rest : Bytes} (h : Closes rest) :
    ∀ b ∈ rest.head?, isTchar b = false := by
  intro b hb
  rw [h b hb]
  decide +kernel

theorem quotedRest_append {bytes : List QuotedByte} (h : ∀ b ∈ bytes, b.Allowed) (rest : Bytes) :
    quotedRest (bytes.flatMap QuotedByte.text ++ 34 :: rest) = .ok rest := by
  induction bytes with
  | nil =>
    change quotedRest (34 :: rest) = _
    rw [quotedRest.eq_def]
    simp
  | cons b bytes ih =>
    have hrest := ih fun x hx => h x (List.mem_cons_of_mem _ hx)
    have hb := h b List.mem_cons_self
    rw [List.flatMap_cons, List.append_assoc]
    cases b with
    | plain byte =>
      have hall : ∀ b, decide (isQuotedText b = true → b ≠ 34 ∧ b ≠ 92) = true :=
        forall_byte (by decide +kernel)
      have hbyte : isQuotedText byte = true := hb
      obtain ⟨hquote, hslash⟩ := of_decide_eq_true (hall byte) hbyte
      change quotedRest (byte :: _) = _
      rw [quotedRest.eq_def]
      simp only [hquote, hslash, hbyte, if_true, if_false]
      exact hrest
    | escaped byte =>
      have hbyte : isEscapable byte = true := hb
      change quotedRest (92 :: byte :: _) = _
      have hquote : (92 : UInt8) ≠ 34 := by decide
      rw [quotedRest.eq_def]
      simp only [hquote, hbyte, if_true, if_false]
      exact hrest

theorem extensionValue_append {value : ExtensionValue} (h : value.WellFormed) {trail rest : Bytes}
    (htrail : trail.all isOws = true) (hrest : Closes rest) :
    extensionValue (value.text ++ (trail ++ rest)) = .ok rest := by
  have htrim : trimLeftOws (trail ++ rest) = rest := trimLeftOws_append htrail hrest.not_ows
  cases value with
  | token bytes =>
    obtain ⟨hne, hall⟩ := h
    have hbehind : ∀ b ∈ (trail ++ rest).head?, isTchar b = false :=
      head_of_blanks htrail (fun b hb => (ows_byte hb).1) hrest.not_tchar
    obtain ⟨htake, hdrop⟩ := token_append hall hbehind
    have hquote : (bytes ++ (trail ++ rest)).head? ≠ some 34 := by
      intro hhead
      exact absurd rfl (tchar_byte (head_of_all hne hall 34 hhead)).2.1
    have hempty : ¬ bytes.isEmpty = true := by simpa using hne
    simp only [ExtensionValue.text, extensionValue, hquote, if_false, htake, hdrop, hempty, htrim]
    rfl
  | quoted bytes =>
    have hquoted := quotedRest_append h (trail ++ rest)
    simp only [ExtensionValue.text, extensionValue, List.cons_append, List.head?_cons, if_true,
      List.tail_cons, List.append_assoc, List.nil_append, hquoted, Except.map, htrim]

theorem optionalValue_append {value : Option (Bytes × ExtensionValue × Bytes)}
    (h : ∀ v ∈ value, v.1.all isOws = true ∧ v.2.1.WellFormed ∧ v.2.2.all isOws = true)
    {rest : Bytes} (hrest : Closes rest) :
    optionalValue (ChunkExtension.valueText value ++ rest) = .ok rest := by
  cases value with
  | none =>
    have hhead : rest.head? ≠ some 61 := fun hhead => absurd (hrest 61 hhead) (by decide)
    simp only [ChunkExtension.valueText, List.nil_append, optionalValue, hhead, if_false]
  | some v =>
    obtain ⟨lead, value, trail⟩ := v
    obtain ⟨hlead, hvalue, htrail⟩ := h _ rfl
    have hstart : ∀ b ∈ (value.text ++ (trail ++ rest)).head?, isOws b = false := by
      cases value with
      | token bytes =>
        intro b hb
        exact (tchar_byte (head_of_all hvalue.1 hvalue.2 b hb)).1
      | quoted bytes =>
        intro b hb
        cases hb
        decide
    simp only [ChunkExtension.valueText, List.cons_append, optionalValue, List.head?_cons,
      if_true, List.tail_cons, List.append_assoc]
    rw [trimLeftOws_append hlead hstart]
    exact extensionValue_append hvalue htrail hrest

theorem valueText_head (value : Option (Bytes × ExtensionValue × Bytes)) {rest : Bytes}
    (hrest : Closes rest) :
    ∀ b ∈ (ChunkExtension.valueText value ++ rest).head?, b = 59 ∨ b = 61 := by
  cases value with
  | none => exact fun b hb => Or.inl (hrest b hb)
  | some v =>
    intro b hb
    cases hb
    exact Or.inr rfl

/-- **One extension** is read off the front. -/
theorem chunkExtension_append {e : ChunkExtension} (h : e.WellFormed) {rest : Bytes}
    (hrest : Closes rest) : chunkExtension (e.text ++ rest) = .ok rest := by
  have hhead := valueText_head e.value hrest
  have hows : ∀ b ∈ (ChunkExtension.valueText e.value ++ rest).head?, isOws b = false := by
    intro b hb
    rcases hhead b hb with rfl | rfl <;> decide
  have htchar : ∀ b ∈ (ChunkExtension.valueText e.value ++ rest).head?, isTchar b = false := by
    intro b hb
    rcases hhead b hb with rfl | rfl <;> decide +kernel
  have hname : trimLeftOws (e.lead ++ (e.name ++ (e.trail ++
      (ChunkExtension.valueText e.value ++ rest))))
        = e.name ++ (e.trail ++ (ChunkExtension.valueText e.value ++ rest)) :=
    trimLeftOws_append h.lead fun b hb => (tchar_byte (head_of_all h.name_nonempty h.name b hb)).1
  obtain ⟨htake, hdrop⟩ := token_append h.name
    (head_of_blanks h.trail (fun b hb => (ows_byte hb).1) htchar)
  have hempty : ¬ e.name.isEmpty = true := by simpa using h.name_nonempty
  have hend : ¬ (rest ≠ [] ∧ rest.head? ≠ some 59) := by
    rintro ⟨hne, hother⟩
    cases rest with
    | nil => exact hne rfl
    | cons b rest => exact hother (congrArg some (hrest b rfl))
  have hsemicolon : ¬ ((59 : UInt8) ≠ 59) := by decide
  simp only [ChunkExtension.text, List.cons_append, List.append_assoc, chunkExtension, hname,
    htake, hdrop, hempty, trimLeftOws_append h.trail hows, optionalValue_append h.value hrest,
    hend, hsemicolon, if_false]
  rfl

/-- **All extensions.** -/
theorem validateChunkExtensions_text {extensions : List ChunkExtension}
    (h : ∀ e ∈ extensions, e.WellFormed) : Closes (extensions.flatMap ChunkExtension.text) ∧
      validateChunkExtensions (extensions.flatMap ChunkExtension.text) = .ok ⟨⟩ := by
  induction extensions with
  | nil =>
    constructor
    · intro b hb
      cases hb
    · rw [List.flatMap_nil, validateChunkExtensions, dif_pos rfl]
  | cons e extensions ih =>
    obtain ⟨hcloses, hrest⟩ := ih fun x hx => h x (List.mem_cons_of_mem _ hx)
    have hturn := chunkExtension_append (h e List.mem_cons_self) hcloses
    rw [List.flatMap_cons]
    constructor
    · intro b hb
      cases hb
      rfl
    · rw [validateChunkExtensions, dif_neg (by simp [ChunkExtension.text])]
      split <;> rename_i hturn' <;> rw [hturn] at hturn' <;> cases hturn'
      exact hrest

end Extensions

end Pgs3.Workers
