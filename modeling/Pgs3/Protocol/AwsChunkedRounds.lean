import Pgs3.Protocol.AwsChunkedSigned

/-!
# The rounds of the `aws-chunked` decoder

Equations for the rounds of the loop of `push`.  A round in the phases that work on lines cuts
a line off the input and hands it to a computation of its own (`headerLine`, `trailerLine`);
the data of a chunk is received and, behind its line end, released (`releaseChunk`).
-/

namespace Pgs3.Protocol

open Foundation Foundation.Stateful

/-! ## 1. Lines -/

def Decoding.advance (s : Decoding) (n : Nat) : Decoding := { s with offset := s.offset + n }

/-- Both kinds of lines are cut off the input in the same way. -/
def linePhase (limit : Nat) (tooLarge : ChunkedError)
    (handle : Bytes → DecodeM (Option DecodeStatus)) (s : Decoding) :
    Except Fault (Option DecodeStatus) × Decoding :=
  match crlfPosition s.available with
  | none =>
      if limit < s.available.length then (.error (.error tooLarge), s)
      else (.ok (some .needMore), s)
  | some position =>
      if limit < position then (.error (.error tooLarge), s)
      else handle (s.available.take position) (s.advance (position + 2))

theorem run_fail {α : Type} (e : ChunkedError) (s : Decoding) :
    (fail e : DecodeM α) s = (.error (.error e), s) := rfl

theorem run_orFail {α : Type} (r : Except ChunkedError α) (s : Decoding) :
    orFail r s = (r.mapError .error, s) := rfl

theorem takeLine_eq (limit : Nat) (tooLarge : ChunkedError) (s : Decoding) :
    takeLine limit tooLarge s =
      match crlfPosition s.available with
      | none => if limit < s.available.length then (.error (.error tooLarge), s) else (.ok none, s)
      | some position =>
          if limit < position then (.error (.error tooLarge), s)
          else (.ok (some (s.available.take position)), s.advance (position + 2)) := by
  simp only [takeLine, run_bind, run_get]
  cases crlfPosition s.available with
  | none => simp only [run_ite, run_fail, run_pure]
  | some position =>
    simp only [run_ite, run_fail, run_bind, run_modify, run_pure, Decoding.advance]

theorem onLine_eq (limit : Nat) (tooLarge : ChunkedError)
    (handle : Bytes → DecodeM (Option DecodeStatus)) (s : Decoding) :
    onLine limit tooLarge handle s = linePhase limit tooLarge handle s := by
  simp only [linePhase, onLine, run_bind, takeLine_eq]
  cases crlfPosition s.available with
  | none =>
    by_cases h : limit < s.available.length
    · simp only [h, if_true]
    · simp only [h, if_false, run_pure]
  | some position =>
    by_cases h : limit < position
    · simp only [h, if_true]
    · simp only [h, if_false]

theorem headerPhase_eq (K : Crates) (s : Decoding) : headerPhase K s =
      linePhase s.limits.maxChunkHeaderBytes .headerTooLarge (headerLine K) s :=
  onLine_eq ..

theorem trailersPhase_eq (K : Crates) (s : Decoding) : trailersPhase K s =
      linePhase s.limits.maxTrailerBytes .trailerTooLarge
        (fun line => trailerLine K line >>= endOfBody) s :=
  onLine_eq ..

theorem dataCrlfPhase_eq (K : Crates) (s : Decoding) :
    dataCrlfPhase K s =
      if s.available.length < 2 then (.ok (some .needMore), s)
      else if s.available.take 2 ≠ crlf then (.error (.error .missingChunkTerminator), s)
      else releaseChunk K (s.advance 2) := by
  simp only [dataCrlfPhase, run_bind, run_get, run_ite, run_fail, run_pure]
  by_cases hlen : s.available.length < 2
  · simp only [hlen, if_true]
  · by_cases hcrlf : s.available.take 2 ≠ crlf
    · rw [if_neg hlen, if_neg hlen, if_pos hcrlf, if_pos hcrlf]
    · rw [if_neg hlen, if_neg hlen, if_neg hcrlf, if_neg hcrlf]
      rfl

/-- After more of the data of a chunk. -/
def Decoding.received (s : Decoding) (current : CurrentChunk) : Decoding :=
  { s with
    current := some (current.receive s.available)
    offset := s.offset + min (current.size - current.data.length) s.available.length
    phase := if (current.receive s.available).data.length = current.size then .dataCrlf
      else s.phase }

theorem dataPhase_eq (s : Decoding) :
    dataPhase s =
      match s.current with
      | none => (.error .panic, s)
      | some current =>
          if s.available.length = 0 then (.ok (some .needMore), s)
          else (.ok none, s.received current) := by
  simp only [dataPhase, run_bind, run_get]
  cases s.current with
  | none => rfl
  | some current =>
    simp only [run_ite, run_bind, run_modify, run_pure]
    by_cases hlen : s.available.length = 0
    · simp only [hlen, if_true]
    · simp only [hlen, if_false]
      have hsize : (current.receive s.available).size = current.size := rfl
      rw [hsize, Decoding.received]
      by_cases hfull : (current.receive s.available).data.length = current.size
      · simp only [hfull, if_true]
      · simp only [hfull, if_false]

theorem decodeRound_eq (K : Crates) (s : Decoding) :
    decodeRound K s =
      match s.phase with
      | .header => headerPhase K s
      | .data => dataPhase s
      | .dataCrlf => dataCrlfPhase K s
      | .trailers => trailersPhase K s
      | .done => (.ok (some .done), s) := by
  simp only [decodeRound, run_bind, run_get]
  cases s.phase <;> rfl

abbrev decodeLoop (K : Crates) : DecodeM DecodeStatus :=
  loop Decoding.todo (decodeRound K) (decodeRound_decreases K)

theorem data_round {K : Crates} {s : Decoding} {current : CurrentChunk} (hphase : s.phase = .data)
    (hcurrent : s.current = some current) (hsome : s.available ≠ []) :
    decodeRound K s = (.ok none, s.received current) := by
  have hlen : s.available.length ≠ 0 := fun h => hsome (List.length_eq_zero_iff.mp h)
  rw [decodeRound_eq, hphase]
  simp only [dataPhase_eq, hcurrent, hlen, if_false]

/-! ## 2. When a line is accepted -/

/-- The signature of a chunk is one that the mode asks for: none without a seed, and else one
    that verifies with the signature before it. -/
def Authentic (K : Crates) (mode : AwsChunkedMode) (previous : Option Digest32) (data : Bytes)
    (signature : Option Digest32) : Prop :=
  match mode, signature with
  | .unsignedTrailer _, none => True
  | .signed context, some own => ∃ before, previous = some before ∧
      Verifies K context before data own
  | _, _ => False

variable {data : Bytes} {signature : Option Digest32}

theorem signatureExpected_of_authentic {K : Crates} {mode : AwsChunkedMode}
    {previous : Option Digest32} (h : Authentic K mode previous data signature) :
    signatureExpected mode signature = .ok ⟨⟩ := by
  cases mode <;> cases signature <;> first | rfl | exact h.elim

section Accepted

variable {K : Crates} {s s' : Decoding}

theorem chainSignature_ok (hexpected : signatureExpected s.mode signature = .ok ⟨⟩) :
    chainSignature K data signature s = (.ok ⟨⟩, s') ↔
      Authentic K s.mode s.previousSignature data signature ∧
        s' = { s with previousSignature := signature.or s.previousSignature } := by
  cases signature with
  | none =>
    have hauthentic : Authentic K s.mode s.previousSignature data none := by
      cases hmode : s.mode with
      | signed context =>
        rw [hmode] at hexpected
        cases hexpected
      | unsignedTrailer declared => trivial
    simp only [chainSignature, run_pure, Prod.mk.injEq, true_and, hauthentic, Option.none_or]
    exact eq_comm
  | some own =>
    cases hmode : s.mode with
    | unsignedTrailer declared =>
      rw [hmode] at hexpected
      cases hexpected
    | signed context =>
      simp only [chainSignature, verifyChunkSignature, run_bind, run_get, hmode]
      cases hprevious : s.previousSignature with
      | none => simp [run_throw, Authentic]
      | some before =>
        by_cases hverified : verifyHmac K context.signingKey.1
            (chunkStringToSign K context before data) own = true
        · simp only [hverified, if_true, run_pure, run_modify, Prod.mk.injEq, true_and, hmode,
            Authentic, Verifies, Option.some.injEq, exists_eq_left', Option.some_or]
          exact eq_comm
        · simp [hverified, run_fail, Authentic, Verifies]

/-- A chunk of this size still fits. -/
def ChunkedLimits.admits (limits : ChunkedLimits) (decoded size : Nat) : Prop :=
  decoded + size < 2 ^ 64 ∧ limits.exceeded (decoded + size) = false

theorem acceptDecoded_ok :
    acceptDecoded data s = (.ok ⟨⟩, s') ↔
      s.limits.admits s.decodedBytes data.length ∧
        s' = { s with
          decodedBytes := s.decodedBytes + data.length
          hashed := s.hashed ++ data
          output := s.output ++ data } := by
  simp only [acceptDecoded, run_bind, run_get, run_ite, run_fail, run_modify,
    ChunkedLimits.admits]
  by_cases hmax : 2 ^ 64 ≤ s.decodedBytes + data.length
  · rw [if_pos hmax]
    exact iff_of_false (by intro h; cases h) fun h => absurd h.1.1 (not_lt.mpr hmax)
  · cases hexceeded : s.limits.exceeded (s.decodedBytes + data.length) with
    | true =>
      rw [if_neg hmax, if_pos rfl]
      exact iff_of_false (by intro h; cases h) (by intro h; cases h.1.2)
    | false =>
      simp only [hmax, if_false, Bool.false_eq_true, Prod.mk.injEq, true_and,
        not_le.mp hmax]
      exact eq_comm

/-- What a header line announces. -/
structure Announces (K : Crates) (s : Decoding) (line : Bytes) (size : Nat)
    (signature : Option Digest32) : Prop where
  parsed : parseChunkHeader line = .ok (size, signature)
  size_le : size ≤ min s.limits.maxChunkBytes maxBufferedChunkBytes
  admits : s.limits.admits s.decodedBytes size
  expected : signatureExpected s.mode signature = .ok ⟨⟩

variable {line : Bytes}

/-- A line that announces a chunk passes all tests. -/
theorem headerLine_eq {size : Nat} (h : Announces K s line size signature) :
    headerLine K line s =
      if size = 0 then
        match chainSignature K [] signature s with
        | (.ok _, s₁) => (.ok none, { s₁ with phase := .trailers })
        | (.error e, s₁) => (.error e, s₁)
      else (.ok none, { s with
        current := some ⟨size, [], signature, Nat.zero_le _⟩
        phase := .data }) := by
  have hsize : ¬ min s.limits.maxChunkBytes maxBufferedChunkBytes < size := not_lt.mpr h.size_le
  have htotal : ¬ (2 ^ 64 ≤ s.decodedBytes + size ∨
      s.limits.exceeded (s.decodedBytes + size) = true) := by
    rw [not_or, not_le, Bool.not_eq_true]
    exact h.admits
  simp only [headerLine, run_bind, run_get, run_orFail, h.parsed, h.expected, Except.mapError,
    run_ite, hsize, htotal, if_false, run_modify, run_pure]
  split
  · rcases chainSignature K [] signature s with ⟨e | u, s₁⟩ <;> rfl
  · rfl

variable {o : Option DecodeStatus}

theorem announces_of_headerLine (h : headerLine K line s = (.ok o, s')) :
    ∃ size signature, Announces K s line size signature := by
  simp only [headerLine, run_bind, run_get, run_orFail] at h
  cases hparsed : parseChunkHeader line with
  | error e =>
    rw [hparsed] at h
    cases h
  | ok header =>
    obtain ⟨size, signature⟩ := header
    refine ⟨size, signature, hparsed, ?_, ?_, ?_⟩
    · by_contra hsize
      rw [not_le] at hsize
      simp only [hparsed, Except.mapError, run_ite, hsize, if_true, run_bind, run_fail] at h
      cases h
    · by_contra htotal
      have htotal : 2 ^ 64 ≤ s.decodedBytes + size ∨
          s.limits.exceeded (s.decodedBytes + size) = true := by
        rw [ChunkedLimits.admits, not_and_or, not_lt, Bool.not_eq_false] at htotal
        exact htotal
      simp only [hparsed, Except.mapError, run_ite, htotal, if_true, run_bind, run_fail] at h
      split at h <;> cases h
    · cases hexpected : signatureExpected s.mode signature with
      | ok u => rfl
      | error e =>
        simp only [hparsed, Except.mapError, run_ite, hexpected, run_bind, run_fail,
          run_orFail] at h
        split at h
        · cases h
        · split at h <;> cases h

/-- **A header line** opens a chunk, or passes the final chunk. -/
theorem headerLine_ok :
    headerLine K line s = (.ok o, s') ↔ o = none ∧ ∃ size signature,
      Announces K s line size signature ∧
      (0 < size ∧ s' = { s with
          current := some ⟨size, [], signature, Nat.zero_le _⟩
          phase := .data } ∨
        size = 0 ∧ Authentic K s.mode s.previousSignature [] signature ∧
          s' = { s with
            previousSignature := signature.or s.previousSignature
            phase := .trailers }) := by
  constructor
  · intro h
    obtain ⟨size, signature, hannounces⟩ := announces_of_headerLine h
    rw [headerLine_eq hannounces] at h
    split at h
    · rename_i hzero
      rcases hchain : chainSignature K [] signature s with ⟨e | u, s₁⟩
      · rw [hchain] at h
        cases h
      · rw [hchain] at h
        cases h
        obtain ⟨hauthentic, rfl⟩ := (chainSignature_ok hannounces.expected).mp hchain
        exact ⟨rfl, size, signature, hannounces, Or.inr ⟨hzero, hauthentic, rfl⟩⟩
    · rename_i hpos
      cases h
      exact ⟨rfl, size, signature, hannounces, Or.inl ⟨Nat.pos_of_ne_zero hpos, rfl⟩⟩
  · rintro ⟨rfl, size, signature, hannounces, ⟨hpos, rfl⟩ | ⟨rfl, hauthentic, rfl⟩⟩
    · rw [headerLine_eq hannounces, if_neg hpos.ne']
    · have hchain := (chainSignature_ok hannounces.expected).mpr ⟨hauthentic, rfl⟩
      rw [headerLine_eq hannounces, if_pos rfl, hchain]

/-- **The release of a chunk.** -/
theorem releaseChunk_ok
    (hexpected : ∀ c, s.current = some c → signatureExpected s.mode c.signature = .ok ⟨⟩) :
    releaseChunk K s = (.ok o, s') ↔ o = none ∧ ∃ current, s.current = some current ∧
      Authentic K s.mode s.previousSignature current.data current.signature ∧
      s.limits.admits s.decodedBytes current.data.length ∧
      s' = { s with
        current := none
        previousSignature := current.signature.or s.previousSignature
        decodedBytes := s.decodedBytes + current.data.length
        hashed := s.hashed ++ current.data
        output := s.output ++ current.data
        phase := .header } := by
  constructor
  · intro h
    simp only [releaseChunk, run_bind, run_get] at h
    cases hcurrent : s.current with
    | none =>
      rw [hcurrent] at h
      cases h
    | some current =>
      simp only [hcurrent, run_bind, run_modify, run_pure] at h
      rcases hchain : chainSignature K current.data current.signature { s with current := none }
        with ⟨e | u, s₁⟩
      · rw [hchain] at h
        cases h
      · rw [hchain] at h
        obtain ⟨hauthentic, rfl⟩ := (chainSignature_ok (s := { s with current := none })
          (hexpected current hcurrent)).mp hchain
        rcases haccept : acceptDecoded current.data { s with
            current := none
            previousSignature := current.signature.or s.previousSignature } with ⟨e | u, s₂⟩
        · simp only [haccept] at h
          cases h
        · simp only [haccept] at h
          obtain ⟨hadmits, rfl⟩ := acceptDecoded_ok.mp haccept
          cases h
          exact ⟨rfl, current, rfl, hauthentic, hadmits, rfl⟩
  · rintro ⟨rfl, current, hcurrent, hauthentic, hadmits, rfl⟩
    have hchain := (chainSignature_ok (K := K) (s := { s with current := none })
      (hexpected current hcurrent)).mpr ⟨hauthentic, rfl⟩
    have haccept := (acceptDecoded_ok (s := { s with
      current := none
      previousSignature := current.signature.or s.previousSignature })).mpr ⟨hadmits, rfl⟩
    simp only [releaseChunk, run_bind, run_get, hcurrent, run_modify, run_pure, hchain, haccept]

/-- **A trailer** is accepted in unsigned mode, once, and if it was declared. -/
theorem acceptTrailer_ok : acceptTrailer line s = (.ok ⟨⟩, s') ↔ ∃ declared name value,
      s.mode = .unsignedTrailer declared ∧ s.trailers.length < s.limits.maxTrailers ∧
      parseTrailer line = .ok (name, value) ∧ name ∉ s.trailers.map (·.name) ∧ name ∈ declared ∧
      s' = { s with trailers := s.trailers ++ [⟨name, value⟩] } := by
  constructor
  · intro h
    simp only [acceptTrailer, run_bind, run_get] at h
    cases hmode : s.mode with
    | signed context =>
      rw [hmode] at h
      cases h
    | unsignedTrailer declared =>
      simp only [hmode, run_ite, run_bind, run_fail, run_orFail, run_modify] at h
      split at h
      · cases h
      · rename_i hroom
        cases hparsed : parseTrailer line with
        | error e =>
          rw [hparsed] at h
          cases h
        | ok field =>
          obtain ⟨name, value⟩ := field
          simp only [hparsed, Except.mapError] at h
          split at h
          · cases h
          · rename_i hnew
            split at h
            · cases h
            · rename_i hdeclared
              cases h
              refine ⟨declared, name, value, rfl, not_le.mp hroom, rfl, ?_, not_not.mp hdeclared, ?_⟩
              · simpa using hnew
              · simp only [hmode]
  · rintro ⟨declared, name, value, hmode, hroom, hparsed, hnew, hdeclared, rfl⟩
    have hany : s.trailers.any (·.name = name) = false := by simpa using hnew
    simp only [acceptTrailer, run_bind, run_get, hmode, run_ite, not_le.mpr hroom, if_false,
      run_orFail, hparsed, Except.mapError, hany, hdeclared, not_true_eq_false, run_modify,
      Bool.false_eq_true]

/-- The state in which a trailer line is handled. -/
def Decoding.counted (s : Decoding) (line : Bytes) : Decoding :=
  { s with trailerBytes := s.trailerBytes + (line.length + 2) }

theorem trailerLine_eq (hmax : s.trailerBytes + (line.length + 2) < 2 ^ 64)
    (hlimit : s.trailerBytes + (line.length + 2) ≤ s.limits.maxTrailerBytes) :
    trailerLine K line s =
      if line.isEmpty then
        match finishTrailers K (s.counted line).toAwsChunkedDecoder with
        | .ok _ => (.ok true, { s.counted line with phase := .done })
        | .error e => (.error (.error e), s.counted line)
      else
        match acceptTrailer line (s.counted line) with
        | (.ok _, s') => (.ok false, s')
        | (.error e, s') => (.error e, s') := by
  have hcounted : { s with trailerBytes := s.trailerBytes + (line.length + 2) }
      = s.counted line := rfl
  simp only [trailerLine, run_bind, run_get, run_ite, run_fail, run_modify, not_le.mpr hmax,
    not_lt.mpr hlimit, if_false, run_orFail, run_pure, hcounted]
  by_cases hempty : line.isEmpty = true
  · rw [if_pos hempty, if_pos hempty]
    cases finishTrailers K (s.counted line).toAwsChunkedDecoder <;> rfl
  · rw [if_neg hempty, if_neg hempty]
    rcases acceptTrailer line (s.counted line) with ⟨e | u, s₁⟩ <;> rfl

/-- **A trailer line** is a trailer, or the end of the body. -/
theorem trailerLine_ok {last : Bool} :
    trailerLine K line s = (.ok last, s') ↔
      s.trailerBytes + (line.length + 2) < 2 ^ 64 ∧
      s.trailerBytes + (line.length + 2) ≤ s.limits.maxTrailerBytes ∧
      (line = [] ∧ last = true ∧
          finishTrailers K (s.counted line).toAwsChunkedDecoder = .ok ⟨⟩ ∧
          s' = { s.counted line with phase := .done } ∨
        line ≠ [] ∧ last = false ∧ acceptTrailer line (s.counted line) = (.ok ⟨⟩, s')) := by
  by_cases hmax : s.trailerBytes + (line.length + 2) < 2 ^ 64
  · by_cases hlimit : s.trailerBytes + (line.length + 2) ≤ s.limits.maxTrailerBytes
    · rw [trailerLine_eq hmax hlimit]
      simp only [hmax, hlimit, true_and, List.isEmpty_iff]
      by_cases hempty : line = []
      · simp only [hempty, if_true, true_and, ne_eq, not_true_eq_false, false_and, or_false]
        cases finishTrailers K (s.counted []).toAwsChunkedDecoder with
        | error e => simp
        | ok u =>
          simp only [Prod.mk.injEq, Except.ok.injEq, true_and]
          exact and_congr eq_comm eq_comm
      · simp only [hempty, if_false, false_and, false_or, ne_eq, not_false_eq_true, true_and]
        rcases acceptTrailer line (s.counted line) with ⟨e | u, s₁⟩
        · simp
        · simp only [Prod.mk.injEq, Except.ok.injEq, true_and]
          exact and_congr eq_comm Iff.rfl
    · simp only [trailerLine, run_bind, run_get, run_ite, run_fail, run_modify,
        if_neg (not_le.mpr hmax), if_pos (not_le.mp hlimit)]
      exact iff_of_false (by intro h; cases h) fun h => absurd h.2.1 hlimit
  · simp only [trailerLine, run_bind, run_get, run_ite, run_fail, if_pos (not_lt.mp hmax)]
    exact iff_of_false (by intro h; cases h) fun h => absurd h.1 hmax

end Accepted

end Pgs3.Protocol
