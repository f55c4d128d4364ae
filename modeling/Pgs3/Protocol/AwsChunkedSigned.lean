import Pgs3.Protocol.AwsChunked

/-!
# Signed chunks are verified before they are released

The points of a run of the `aws-chunked` decoder are its states between two rounds of the
loop of `push` and between two calls, for any fragmentation of the stream and up to the
first error.  In signed mode the output at every point is the data of the first chunks of
the stream, each of which carries a signature that verifies with the signature before it
as predecessor, starting at the seed; and `Done` is only reported behind an empty chunk
that verified in the same chain.

The invariant `Holds` says, for each phase, how the stream received so far splits into the
chunks released, the chunk under way and the input not consumed yet.
-/

namespace Pgs3.Protocol

open Foundation Foundation.Stateful

/-! ## 1. Points of a run -/

/-- What a round of the loop means for the `push` it belongs to: `none` while the loop goes
    on, and then the result of the call. -/
def pushResult : Except Fault (Option DecodeStatus) → Option (Except Fault DecodeStatus)
  | .ok none => none
  | .ok (some status) => some (.ok status)
  | .error fault => some (.error fault)

/-- The points of the runs of a decoder: the stream pushed so far, the state with the
    output so far, and the result of the last `push` if it has returned. -/
inductive DecodePoint (K : Crates) (mode : AwsChunkedMode) (limits : ChunkedLimits) :
    Bytes → Decoding → Option (Except Fault DecodeStatus) → Prop
  | new {d : AwsChunkedDecoder} (h : AwsChunkedDecoder.new mode limits = .ok d) :
      DecodePoint K mode limits [] ⟨d, []⟩ (some (.ok .needMore))
  | push {stream : Bytes} {s : Decoding} {status : DecodeStatus} (bytes : Bytes)
      (h : DecodePoint K mode limits stream s (some (.ok status))) (hphase : s.phase ≠ .done) :
      DecodePoint K mode limits (stream ++ bytes) (s.extend bytes) none
  | pushDone {stream : Bytes} {s : Decoding} {status : DecodeStatus} (bytes : Bytes)
      (h : DecodePoint K mode limits stream s (some (.ok status))) (hphase : s.phase = .done) :
      DecodePoint K mode limits (stream ++ bytes) s
        (some (if bytes.isEmpty then .ok .done else .error (.error .inputAfterEnd)))
  | round {stream : Bytes} {s s' : Decoding} {r : Except Fault (Option DecodeStatus)}
      (h : DecodePoint K mode limits stream s none) (hround : decodeRound K s = (r, s')) :
      DecodePoint K mode limits stream s' (pushResult r)

/-- **A call of `push` runs through such points**, and ends at one. -/
theorem DecodePoint.push_returns {K : Crates} {mode : AwsChunkedMode} {limits : ChunkedLimits}
    {stream bytes : Bytes} {s s' : Decoding} {status : DecodeStatus} {r : Except Fault DecodeStatus}
    (h : DecodePoint K mode limits stream s (some (.ok status)))
    (hpush : Protocol.push K bytes s = (r, s')) :
    DecodePoint K mode limits (stream ++ bytes) s' (some r) := by
  have hcall : wp (Protocol.push K bytes)
      (fun a s' => DecodePoint K mode limits (stream ++ bytes) s' (some (.ok a)))
      (fun e s' => DecodePoint K mode limits (stream ++ bytes) s' (some (.error e))) s := by
    simp only [Protocol.push, wp_bind, wp_get, wp_ite, wp_pure, wp_fail, wp_modify]
    refine ⟨fun hdone => ?_, fun hphase => ?_⟩
    · have hpoint := h.pushDone bytes hdone
      constructor
      · intro hempty
        rwa [if_pos hempty] at hpoint
      · intro hempty
        rwa [if_neg hempty] at hpoint
    · apply wp_loop fun s => DecodePoint K mode limits (stream ++ bytes) s none
      · intro s₁ hpoint
        rcases hround : decodeRound K s₁ with ⟨e | (_ | a), s₂⟩
        all_goals
          have hnext := hpoint.round hround
          simp only [wp, hround]
          exact hnext
      · exact h.push bytes hphase
  have hend := wp_run hcall hpush
  cases r <;> exact hend

/-! ## 2. The chain of signatures -/

/-- A chunk as it stands on the wire: a header line, with the size of the data and the
    signature that are read from it. -/
structure SignedChunk where
  header : Bytes
  data : Bytes
  signature : Digest32
  line : ¬ crlf <:+: header
  parsed : parseChunkHeader header = .ok (data.length, some signature)

def SignedChunk.wire (c : SignedChunk) : Bytes := c.header ++ crlf ++ c.data ++ crlf

/-- The signature verifies for this data and this predecessor. -/
def Verifies (K : Crates) (context : StreamingSigningContext) (previous : Digest32)
    (data : Bytes) (own : Digest32) : Prop :=
  verifyHmac K context.signingKey.1 (chunkStringToSign K context previous data) own = true

/-- Nonempty chunks, each signed with the signature of the one before as predecessor. -/
def Chained (K : Crates) (context : StreamingSigningContext) : Digest32 → List SignedChunk → Prop
  | _, [] => True
  | previous, c :: chunks =>
      c.data ≠ [] ∧ Verifies K context previous c.data c.signature
        ∧ Chained K context c.signature chunks

def chainEnd (seed : Digest32) (chunks : List SignedChunk) : Digest32 :=
  chunks.foldl (fun _ c => c.signature) seed

def wireOf (chunks : List SignedChunk) : Bytes := chunks.flatMap SignedChunk.wire

def dataOf (chunks : List SignedChunk) : Bytes := chunks.flatMap SignedChunk.data

theorem chained_append {K : Crates} {context : StreamingSigningContext} {c : SignedChunk} :
    ∀ {chunks : List SignedChunk} {seed : Digest32}, Chained K context seed chunks →
      c.data ≠ [] → Verifies K context (chainEnd seed chunks) c.data c.signature →
      Chained K context seed (chunks ++ [c])
  | [], _, _, hdata, hverifies => ⟨hdata, hverifies, trivial⟩
  | _ :: _, _, ⟨hfirst, hown, hrest⟩, hdata, hverifies =>
      ⟨hfirst, hown, chained_append hrest hdata hverifies⟩

@[simp] theorem chainEnd_append (seed : Digest32) (chunks : List SignedChunk) (c : SignedChunk) :
    chainEnd seed (chunks ++ [c]) = c.signature := by
  simp [chainEnd]

@[simp] theorem wireOf_append (chunks : List SignedChunk) (c : SignedChunk) :
    wireOf (chunks ++ [c]) = wireOf chunks ++ c.wire := by
  simp [wireOf]

@[simp] theorem dataOf_append (chunks : List SignedChunk) (c : SignedChunk) :
    dataOf (chunks ++ [c]) = dataOf chunks ++ c.data := by
  simp [dataOf]

/-! ## 3. The invariant -/

/-- How the stream splits in each phase: behind the chunks released stand the part of the
    chunk under way that was received, and the input not consumed yet. -/
def Expects (K : Crates) (context : StreamingSigningContext) (stream : Bytes)
    (chunks : List SignedChunk) (current : Option CurrentChunk) (available : Bytes) :
    DecodePhase → Prop
  | .header => stream = wireOf chunks ++ available
  | .data => ∃ c header own, current = some c ∧ c.signature = some own
      ∧ 0 < c.size ∧ ¬ crlf <:+: header
      ∧ parseChunkHeader header = .ok (c.size, some own)
      ∧ stream = wireOf chunks ++ header ++ crlf ++ c.data ++ available
  | .dataCrlf => ∃ c header own, current = some c ∧ c.signature = some own
      ∧ 0 < c.size ∧ ¬ crlf <:+: header
      ∧ parseChunkHeader header = .ok (c.size, some own)
      ∧ stream = wireOf chunks ++ header ++ crlf ++ c.data ++ available
      ∧ c.data.length = c.size
  | .trailers => ∃ final : SignedChunk, final.data = []
      ∧ Verifies K context (chainEnd context.seedSignature chunks) [] final.signature
      ∧ stream = wireOf chunks ++ final.header ++ crlf ++ available
  | .done => ∃ final : SignedChunk, final.data = []
      ∧ Verifies K context (chainEnd context.seedSignature chunks) [] final.signature
      ∧ stream = wireOf chunks ++ final.header ++ crlf ++ crlf

/-- The phases in which the decoder still takes chunks. -/
def DecodePhase.takesChunks : DecodePhase → Bool
  | .header => true
  | .data => true
  | .dataCrlf => true
  | .trailers => false
  | .done => false

/-- The invariant of a decoder in signed mode that has not failed. -/
structure Holds (K : Crates) (context : StreamingSigningContext) (stream : Bytes)
    (chunks : List SignedChunk) (s : Decoding) : Prop where
  mode : s.mode = .signed context
  bounded : s.offset ≤ s.input.length
  chained : Chained K context context.seedSignature chunks
  output : s.output = dataOf chunks
  previous : s.phase.takesChunks = true →
    s.previousSignature = some (chainEnd context.seedSignature chunks)
  expects : Expects K context stream chunks s.current s.available s.phase

/-- The output is the data of the first chunks of the stream, all of them verified. -/
def Released (K : Crates) (context : StreamingSigningContext) (stream : Bytes)
    (chunks : List SignedChunk) (output : Bytes) : Prop :=
  wireOf chunks <+: stream ∧ Chained K context context.seedSignature chunks
    ∧ output = dataOf chunks

section Invariant

variable {K : Crates} {context : StreamingSigningContext} {stream : Bytes}
  {chunks : List SignedChunk} {s : Decoding}

theorem Expects.isPrefix {current : Option CurrentChunk} {available : Bytes}
    {phase : DecodePhase} (h : Expects K context stream chunks current available phase) :
    wireOf chunks <+: stream := by
  cases phase with
  | header => exact ⟨_, h.symm⟩
  | data =>
    obtain ⟨_, _, _, _, _, _, _, _, hstream⟩ := h
    simp only [List.append_assoc] at hstream
    exact ⟨_, hstream.symm⟩
  | dataCrlf =>
    obtain ⟨_, _, _, _, _, _, _, _, hstream, _⟩ := h
    simp only [List.append_assoc] at hstream
    exact ⟨_, hstream.symm⟩
  | trailers | done =>
    obtain ⟨_, _, _, hstream⟩ := h
    simp only [List.append_assoc] at hstream
    exact ⟨_, hstream.symm⟩

theorem Expects.append {current : Option CurrentChunk} {available : Bytes}
    {phase : DecodePhase} (h : Expects K context stream chunks current available phase)
    (hphase : phase ≠ .done) (bytes : Bytes) :
    Expects K context (stream ++ bytes) chunks current (available ++ bytes) phase := by
  cases phase with
  | header =>
    change stream = _ at h
    change stream ++ bytes = _
    rw [h, List.append_assoc]
  | data =>
    obtain ⟨c, header, own, h1, h2, h3, h4, h5, hstream⟩ := h
    refine ⟨c, header, own, h1, h2, h3, h4, h5, ?_⟩
    rw [← List.append_assoc, ← hstream]
  | dataCrlf =>
    obtain ⟨c, header, own, h1, h2, h3, h4, h5, hstream, h6⟩ := h
    refine ⟨c, header, own, h1, h2, h3, h4, h5, ?_, h6⟩
    rw [← List.append_assoc, ← hstream]
  | trailers =>
    obtain ⟨final, h1, h2, hstream⟩ := h
    refine ⟨final, h1, h2, ?_⟩
    rw [← List.append_assoc, ← hstream]
  | done => exact absurd rfl hphase

theorem Holds.released (h : Holds K context stream chunks s) :
    Released K context stream chunks s.output :=
  ⟨h.expects.isPrefix, h.chained, h.output⟩

theorem drop_available (s : Decoding) (n : Nat) :
    s.input.drop (s.offset + n) = s.available.drop n := by
  rw [AwsChunkedDecoder.available, List.drop_drop]

theorem offset_bounded {n : Nat} (hbounded : s.offset ≤ s.input.length)
    (hn : n ≤ s.available.length) : s.offset + n ≤ s.input.length := by
  rw [AwsChunkedDecoder.available, List.length_drop] at hn
  omega

theorem line_length {line rest : Bytes} (h : s.available = line ++ crlf ++ rest) :
    line.length + 2 ≤ s.available.length ∧ s.available.drop (line.length + 2) = rest := by
  have hlen : (line ++ crlf).length = line.length + 2 := by simp [crlf]
  constructor
  · rw [h, List.length_append, hlen]
    omega
  · rw [h, ← hlen, List.drop_left]

theorem compact_available (s : Decoding) (hbounded : s.offset ≤ s.input.length) :
    s.compact.available = s.available ∧ s.compact.offset ≤ s.compact.input.length := by
  unfold Decoding.compact
  split
  · rename_i heq
    simp [AwsChunkedDecoder.available, heq]
  · split
    · simp [AwsChunkedDecoder.available]
    · exact ⟨rfl, hbounded⟩

theorem extend_available (s : Decoding) (bytes : Bytes) (hbounded : s.offset ≤ s.input.length) :
    (s.extend bytes).available = s.available ++ bytes
      ∧ (s.extend bytes).offset ≤ (s.extend bytes).input.length := by
  obtain ⟨havailable, hle⟩ := compact_available s hbounded
  constructor
  · rw [← havailable]
    simp only [Decoding.extend, AwsChunkedDecoder.available]
    rw [List.drop_append_of_le_length hle]
  · simp only [Decoding.extend, List.length_append]
    omega

theorem extend_eq (s : Decoding) (bytes : Bytes) :
    ∃ input offset, s.extend bytes = { s with input, offset } := by
  unfold Decoding.extend Decoding.compact
  split
  · exact ⟨_, _, rfl⟩
  · split
    · exact ⟨_, _, rfl⟩
    · exact ⟨_, _, rfl⟩

/-! ## 4. What a call and a round keep -/

/-- The bytes of a new call only lengthen the input not consumed yet. -/
theorem Holds.extend (h : Holds K context stream chunks s) (hphase : s.phase ≠ .done)
    (bytes : Bytes) : Holds K context (stream ++ bytes) chunks (s.extend bytes) := by
  obtain ⟨havailable, hle⟩ := extend_available s bytes h.bounded
  have hexpects := h.expects.append hphase bytes
  rw [← havailable] at hexpects
  obtain ⟨input, offset, heq⟩ := extend_eq s bytes
  rw [heq] at hle hexpects ⊢
  exact ⟨h.mode, hle, h.chained, h.output, h.previous, hexpects⟩

/-- What a round leaves behind: the invariant, and `Done` only in the last phase. -/
def Kept (K : Crates) (context : StreamingSigningContext) (stream : Bytes)
    (o : Option DecodeStatus) (s : Decoding) : Prop :=
  (∃ chunks, Holds K context stream chunks s) ∧ (o = some .done → s.phase = .done)

variable (h : Holds K context stream chunks s)

include h

theorem headerPhase_holds (hphase : s.phase = .header) : wp (headerPhase K) (Kept K context stream)
      (fun _ s' => Released K context stream chunks s'.output) s := by
  have hstream : stream = wireOf chunks ++ s.available := by
    have hexpects := h.expects
    rwa [hphase] at hexpects
  have hprevious := h.previous (by rw [hphase]; rfl)
  apply wp_headerPhase
  · exact ⟨⟨chunks, h⟩, fun hdone => by cases hdone⟩
  · intro e s' houtput
    rw [houtput]
    exact h.released
  · intro line rest size signature havailable hline hheader hsize hexpected
    obtain ⟨hle, hdrop⟩ := line_length havailable
    refine ⟨⟨chunks, h.mode, offset_bounded h.bounded hle, h.chained, h.output,
      fun _ => hprevious, ?_⟩, fun hdone => by cases hdone⟩
    cases signature with
    | none =>
      rw [h.mode] at hexpected
      cases hexpected
    | some own =>
      refine ⟨_, line, own, rfl, rfl, hsize, hline, hheader, ?_⟩
      change stream = _ ++ [] ++ s.input.drop (s.offset + (line.length + 2))
      rw [drop_available, hdrop, hstream, havailable]
      simp only [List.append_assoc, List.append_nil]
  · intro line rest signature previousSignature havailable hline hheader _ hverified
    obtain ⟨hle, hdrop⟩ := line_length havailable
    obtain ⟨previous, own, hprev, hown, hverifies⟩ := hverified context h.mode
    rw [hprevious] at hprev
    cases hprev
    subst hown
    refine ⟨⟨chunks, h.mode, offset_bounded h.bounded hle, h.chained, h.output,
      (by intro htakes; cases htakes), ⟨line, [], own, hline, hheader⟩, rfl, hverifies, ?_⟩,
      fun hdone => by cases hdone⟩
    change stream = _ ++ s.input.drop (s.offset + (line.length + 2))
    rw [drop_available, hdrop, hstream, havailable]
    simp only [List.append_assoc]

theorem dataPhase_holds (hphase : s.phase = .data) : wp dataPhase (Kept K context stream)
      (fun _ s' => Released K context stream chunks s'.output) s := by
  have hexpects := h.expects
  rw [hphase] at hexpects
  obtain ⟨current, header, own, hcurrent, hsignature, hsize, hline, hheader, hstream⟩ := hexpects
  have hprevious := h.previous (by rw [hphase]; rfl)
  apply wp_dataPhase
  · exact ⟨⟨chunks, h⟩, fun hdone => by cases hdone⟩
  · intro hnone
    rw [hcurrent] at hnone
    cases hnone
  · intro current' hcurrent' _
    cases hcurrent.symm.trans hcurrent'
    have hcount : min (current.size - current.data.length) s.available.length
        ≤ s.available.length := Nat.min_le_right _ _
    have hsplit : stream = wireOf chunks ++ header ++ crlf
        ++ (current.receive s.available).data
        ++ s.input.drop (s.offset
          + min (current.size - current.data.length) s.available.length) := by
      rw [drop_available, hstream]
      simp only [CurrentChunk.receive, List.append_assoc, List.take_append_drop]
    refine ⟨⟨chunks, h.mode, offset_bounded h.bounded hcount, h.chained, h.output,
      fun _ => hprevious, ?_⟩, fun hdone => by cases hdone⟩
    by_cases hfull : (current.receive s.available).data.length
        = (current.receive s.available).size
    · simp only [hfull, if_true]
      exact ⟨_, header, own, rfl, hsignature, hsize, hline, hheader, hsplit, hfull⟩
    · simp only [hfull, if_false, hphase]
      exact ⟨_, header, own, rfl, hsignature, hsize, hline, hheader, hsplit⟩

/-- The round that releases a chunk has just verified it. -/
theorem dataCrlfPhase_holds (hphase : s.phase = .dataCrlf) :
    wp (dataCrlfPhase K) (Kept K context stream)
      (fun _ s' => Released K context stream chunks s'.output) s := by
  have hexpects := h.expects
  rw [hphase] at hexpects
  obtain ⟨current, header, own, hcurrent, hsignature, hsize, hline, hheader, hstream, hfull⟩ :=
    hexpects
  have hprevious := h.previous (by rw [hphase]; rfl)
  apply wp_dataCrlfPhase
  · exact ⟨⟨chunks, h⟩, fun hdone => by cases hdone⟩
  · intro e s' houtput
    rw [houtput]
    exact h.released
  · intro current' rest previousSignature hcurrent' havailable hcases
    cases hcurrent.symm.trans hcurrent'
    rcases hcases with ⟨hnone, _⟩ | ⟨context', previous, own', hmode, hprev, hown, hverified, hnew⟩
    · rw [hsignature] at hnone
      cases hnone
    · cases h.mode.symm.trans hmode
      cases hprevious.symm.trans hprev
      cases hsignature.symm.trans hown
      rw [← hfull] at hheader
      let c : SignedChunk := ⟨header, current.data, own, hline, hheader⟩
      have hdata : c.data ≠ [] := List.ne_nil_of_length_pos (hfull ▸ hsize)
      obtain ⟨hle, hdrop⟩ := @line_length s [] rest havailable
      refine ⟨⟨chunks ++ [c], h.mode, offset_bounded h.bounded hle,
        chained_append h.chained hdata hverified, ?_, fun _ => ?_, ?_⟩, fun hdone => by cases hdone⟩
      · rw [dataOf_append, ← h.output]
      · rw [chainEnd_append]
        exact hnew
      · change stream = wireOf (chunks ++ [c]) ++ s.input.drop (s.offset + 2)
        have hdrop' : s.available.drop 2 = rest := hdrop
        rw [drop_available, hdrop', hstream, havailable, wireOf_append]
        simp only [SignedChunk.wire, c, List.append_assoc]

theorem trailersPhase_holds (hphase : s.phase = .trailers) :
    wp (trailersPhase K) (Kept K context stream)
      (fun _ s' => Released K context stream chunks s'.output) s := by
  have hexpects := h.expects
  rw [hphase] at hexpects
  obtain ⟨final, hempty, hverified, hstream⟩ := hexpects
  apply wp_trailersPhase
  · exact ⟨⟨chunks, h⟩, fun hdone => by cases hdone⟩
  · intro e s' houtput
    rw [houtput]
    exact h.released
  · intro line rest trailers trailerBytes declared havailable hmode
    cases h.mode.symm.trans hmode
  · intro trailerBytes havailable
    have hle : 2 ≤ s.available.length := by rw [havailable]; exact Nat.le_refl 2
    refine ⟨⟨chunks, h.mode, offset_bounded h.bounded hle, h.chained, h.output,
      (by intro htakes; cases htakes), final, hempty, hverified, ?_⟩, fun _ => rfl⟩
    rw [hstream, havailable]

/-- **One round** keeps the invariant, or fails with verified data released only. -/
theorem decodeRound_holds : wp (decodeRound K) (Kept K context stream)
      (fun _ s' => Released K context stream chunks s'.output) s := by
  simp only [decodeRound, wp_bind, wp_get]
  split
  · exact headerPhase_holds h (by assumption)
  · exact dataPhase_holds h (by assumption)
  · exact dataCrlfPhase_holds h (by assumption)
  · exact trailersPhase_holds h (by assumption)
  · rename_i hdone
    exact ⟨⟨chunks, h⟩, fun _ => hdone⟩

end Invariant

/-! ## 5. Every point of every run -/

/-- At a point where the decoder has not failed the invariant holds, and `Done` is only
    reported in the last phase. -/
def Trusted (K : Crates) (context : StreamingSigningContext) (stream : Bytes) (s : Decoding) :
    Option (Except Fault DecodeStatus) → Prop
  | none => ∃ chunks, Holds K context stream chunks s
  | some (.ok status) => (∃ chunks, Holds K context stream chunks s)
      ∧ (status = .done → s.phase = .done)
  | some (.error _) => ∃ chunks, Released K context stream chunks s.output

theorem Trusted.pushResult {K : Crates} {context : StreamingSigningContext} {stream : Bytes}
    {chunks : List SignedChunk} {s s' : Decoding} {r : Except Fault (Option DecodeStatus)}
    (h : Holds K context stream chunks s) (hround : decodeRound K s = (r, s')) :
    Trusted K context stream s' (pushResult r) := by
  have hkept := wp_run (decodeRound_holds h) hround
  rcases r with e | (_ | status)
  · exact ⟨chunks, hkept⟩
  · exact hkept.1
  · exact ⟨hkept.1, fun hdone => hkept.2 (congrArg some hdone)⟩

theorem DecodePoint.trusted {K : Crates} {context : StreamingSigningContext}
    {limits : ChunkedLimits} {stream : Bytes} {s : Decoding}
    {result : Option (Except Fault DecodeStatus)}
    (h : DecodePoint K (.signed context) limits stream s result) :
    Trusted K context stream s result := by
  induction h with
  | new hnew =>
    cases hnew
    refine ⟨⟨[], rfl, Nat.le_refl 0, trivial, rfl, fun _ => rfl, rfl⟩, by intro hdone; cases hdone⟩
  | push bytes _ hphase ih =>
    obtain ⟨⟨chunks, hholds⟩, _⟩ := ih
    exact ⟨chunks, hholds.extend hphase bytes⟩
  | @pushDone stream s status bytes _ hphase ih =>
    obtain ⟨⟨chunks, hholds⟩, _⟩ := ih
    split
    · rename_i hempty
      rw [List.isEmpty_iff.mp hempty, List.append_nil]
      exact ⟨⟨chunks, hholds⟩, fun _ => hphase⟩
    · obtain ⟨hstart, hchained, houtput⟩ := hholds.released
      exact ⟨chunks, hstart.trans (List.prefix_append _ _), hchained, houtput⟩
  | round _ hround ih =>
    obtain ⟨chunks, hholds⟩ := ih
    exact Trusted.pushResult hholds hround

/-- **Signed data is released only after verification.**  At every point of every run in
    signed mode the output is the data of the first chunks of the stream, all verified in
    the chain that starts at the seed signature; where `Done` is reported the stream ends,
    behind these chunks, with an empty chunk verified in the same chain. -/
theorem signed_output_verified {K : Crates} {context : StreamingSigningContext}
    {limits : ChunkedLimits} {stream : Bytes} {s : Decoding}
    {result : Option (Except Fault DecodeStatus)}
    (h : DecodePoint K (.signed context) limits stream s result) :
    ∃ chunks, wireOf chunks <+: stream ∧ Chained K context context.seedSignature chunks
      ∧ s.output = dataOf chunks
      ∧ (result = some (.ok .done) → ∃ final : SignedChunk, final.data = []
        ∧ Verifies K context (chainEnd context.seedSignature chunks) [] final.signature
        ∧ stream = wireOf chunks ++ final.header ++ crlf ++ crlf) := by
  have htrusted := h.trusted
  rcases result with _ | (e | status)
  · obtain ⟨chunks, hholds⟩ := htrusted
    obtain ⟨hstart, hchained, houtput⟩ := hholds.released
    exact ⟨chunks, hstart, hchained, houtput, by intro hdone; cases hdone⟩
  · obtain ⟨chunks, hstart, hchained, houtput⟩ := htrusted
    exact ⟨chunks, hstart, hchained, houtput, by intro hdone; cases hdone⟩
  · obtain ⟨⟨chunks, hholds⟩, hphase⟩ := htrusted
    obtain ⟨hstart, hchained, houtput⟩ := hholds.released
    refine ⟨chunks, hstart, hchained, houtput, fun hdone => ?_⟩
    cases hdone
    have hexpects := hholds.expects
    rwa [hphase rfl] at hexpects

def helloContext : StreamingSigningContext where
  signingKey := digestOf "467607ffe46a4d8bf8a2d164609bfb296ba782553779c36096edee1bb372b41c"
  amzDate := ascii "20260101T000000Z"
  credentialScope := ascii "20260101/r/s3/aws4_request"
  seedSignature := digestOf "4977a4802c0301f04d90e0bfb9c2ad93b092fccded03324616a60d2c558a0ffe"

/-- Two chunks and the final one: the size line up to the signature, the data, its hash, and the
    signature that HMAC gives behind the one before. -/
def helloChunks : List (String × Bytes × Digest32 × Digest32) :=
  [("5;chunk-signature=", ascii "hello",
      digestOf "2cf24dba5fb0a30e26e83b2ac5b9e29e1b161e5c1fa7425e73043362938b9824",
      digestOf "1aeabca1cd93ada37bdaf20546797ddc3785a5ee5bd0984666c0ab06de057ecd"),
    ("5;chunk-signature=", ascii "world",
      digestOf "486ea46224d1bb4fb680f34f7c9ad96a8f24ec88be73ea8e5a6c65260e9cb8a7",
      digestOf "80b7f393a6f38159fb23b39a6a9ba77b339b814f83d7116de646d9b16b391b21"),
    ("0;chunk-signature=", [],
      digestOf "e3b0c44298fc1c149afbf4c8996fb92427ae41e4649b934ca495991b7852b855",
      digestOf "f424d59cd9fb802237b09071b8f7f2081155f4a78bf2479aacb87c374e1a05eb")]

def helloStream : Bytes :=
  helloChunks.flatMap fun c => ascii c.1 ++ hexLower c.2.2.2.1 ++ crlf ++ c.2.1 ++ crlf

/-- SHA-256 and HMAC, right on the texts of this stream. -/
def Crates.streamed : Crates :=
  let hashes := helloChunks.map fun c => (c.2.1, c.2.2.1)
  let previous := helloContext.seedSignature :: helloChunks.map fun c => c.2.2.2
  .recording hashes ((helloChunks.zip previous).map fun c =>
    ((helloContext.signingKey.1,
      chunkStringToSign (.recording hashes []) helloContext c.2 c.1.2.1), c.1.2.2.2))

/-- The states of the loop when the stream is pushed in one call. -/
def helloRound : Nat → Decoding
  | 0 => (⟨.initial (.signed helloContext) {}, []⟩ : Decoding).extend helloStream
  | n + 1 => (decodeRound .streamed (helloRound n)).2

theorem helloRound_next {n : Nat} {r : Except Fault (Option DecodeStatus)}
    (h : DecodePoint .streamed (.signed helloContext) {} helloStream (helloRound n) none)
    (hr : (decodeRound .streamed (helloRound n)).1 = r) :
    DecodePoint .streamed (.signed helloContext) {} helloStream (helloRound (n + 1))
      (pushResult r) :=
  h.round (Prod.ext hr rfl)

theorem helloRound_point {n : Nat}
    (h : ∀ i < n, (decodeRound .streamed (helloRound i)).1 = .ok none) :
    DecodePoint .streamed (.signed helloContext) {} helloStream (helloRound n) none := by
  induction n with
  | zero =>
    have hnew : DecodePoint .streamed (.signed helloContext) {} []
        ⟨.initial (.signed helloContext) {}, []⟩ (some (.ok .needMore)) := .new rfl
    exact hnew.push helloStream (by decide)
  | succ n ih =>
    exact helloRound_next (ih fun i hi => h i (Nat.lt_succ_of_lt hi)) (h n (Nat.lt_succ_self n))

theorem signed_output_verified_hello : (helloRound 8).output = ascii "helloworld" ∧
    ∃ chunks, wireOf chunks <+: helloStream
      ∧ Chained .streamed helloContext helloContext.seedSignature chunks
      ∧ (helloRound 8).output = dataOf chunks ∧ ∃ final : SignedChunk, final.data = []
        ∧ Verifies .streamed helloContext (chainEnd helloContext.seedSignature chunks) []
          final.signature ∧ helloStream = wireOf chunks ++ final.header ++ crlf ++ crlf := by
  have hlast : (decodeRound .streamed (helloRound 7)).1 = .ok (some .done) := by decide +kernel
  have hpoint := helloRound_next (helloRound_point (n := 7) (by decide +kernel)) hlast
  obtain ⟨chunks, hstream, hchained, houtput, hdone⟩ := signed_output_verified hpoint
  exact ⟨by decide +kernel, chunks, hstream, hchained, houtput, hdone rfl⟩

end Pgs3.Protocol
