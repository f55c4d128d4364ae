import Pgs3.Protocol.AwsChunkedGrammar

/-!
# What the `aws-chunked` decoder accepts

At every point of a run that has not failed, the stream received so far splits into chunks
that fit, a part that depends on the phase, and the input not consumed yet (`Standing`).
Where `Done` is reported the stream is the wire of a valid encoding.
-/

namespace Pgs3.Protocol

open Foundation Foundation.Stateful

/-! ## 1. The invariant -/

/-- A chunk under way, behind the size line that announced it. -/
structure Opened (mode : AwsChunkedMode) (limits : ChunkedLimits) (c : CurrentChunk)
    (digits : Bytes) (text : Option Bytes) : Prop where
  spells : Spells digits c.size
  hex_text : ∀ t ∈ text, (decodeHex32 t).isSome
  signature : c.signature = text.bind decodeHex32
  header_le : (sizeLine digits text).length ≤ limits.maxChunkHeaderBytes
  size_pos : 0 < c.size
  size_le : c.size ≤ min limits.maxChunkBytes maxBufferedChunkBytes
  expected : signatureExpected mode c.signature = .ok ⟨⟩

/-- The final size line and the trailers read so far. -/
structure Ending (K : Crates) (mode : AwsChunkedMode) (limits : ChunkedLimits)
    (chunks : List WireChunk) (final : WireChunk) (lines : List TrailerLine) : Prop where
  final_empty : final.data = []
  final : final.Fits K mode limits (chunkData chunks).length
    (lastSignature mode.previousSignature chunks)
  wellFormed : ∀ t ∈ lines, t.WellFormed
  count_le : lines.length ≤ limits.maxTrailers
  declared : match mode with
    | .signed _ => lines = []
    | .unsignedTrailer declared =>
        (lines.map (·.name)).Nodup ∧ ∀ name ∈ lines.map (·.name), name ∈ declared

/-- What stands in the stream behind the chunks, by phase. -/
def Remains (K : Crates) (mode : AwsChunkedMode) (limits : ChunkedLimits) (stream : Bytes)
    (chunks : List WireChunk) (s : Decoding) : DecodePhase → Prop
  | .header => stream = chunkWires chunks ++ s.available
  | .data => ∃ c digits text, s.current = some c ∧ Opened mode limits c digits text ∧
      stream = chunkWires chunks ++ sizeLine digits text ++ crlf ++ c.data ++ s.available
  | .dataCrlf => ∃ c digits text, s.current = some c ∧ Opened mode limits c digits text ∧
      stream = chunkWires chunks ++ sizeLine digits text ++ crlf ++ c.data ++ s.available ∧
      c.data.length = c.size
  | .trailers => ∃ final lines, Ending K mode limits chunks final lines ∧
      s.trailers = lines.map (·.field) ∧
      s.trailerBytes = (ChunkedEncoding.trailerWires lines).length ∧
      stream = chunkWires chunks ++ final.header ++ crlf
        ++ ChunkedEncoding.trailerWires lines ++ s.available
  | .done => ∃ final lines, (⟨chunks, final, lines⟩ : ChunkedEncoding).Valid K mode limits ∧
      stream = (⟨chunks, final, lines⟩ : ChunkedEncoding).wire

/-- The invariant of a decoder that has not failed. -/
structure Standing (K : Crates) (mode : AwsChunkedMode) (limits : ChunkedLimits)
    (stream : Bytes) (chunks : List WireChunk) (s : Decoding) : Prop where
  same_mode : s.mode = mode
  same_limits : s.limits = limits
  bounded : s.offset ≤ s.input.length
  distinct : mode.Distinct
  fits : ChunksFit K mode limits 0 mode.previousSignature chunks
  decoded : s.decodedBytes = (chunkData chunks).length
  hashed : s.hashed = chunkData chunks
  output : s.output = chunkData chunks
  fresh : s.phase.takesChunks = true →
    s.previousSignature = lastSignature mode.previousSignature chunks ∧ s.trailers = [] ∧
      s.trailerBytes = 0
  remains : Remains K mode limits stream chunks s s.phase

/-! ## 2. What a call and a round keep -/

/-- A round that works on lines waits, or has handled a line. -/
theorem linePhase_ok {limit : Nat} {tooLarge : ChunkedError}
    {handle : Bytes → DecodeM (Option DecodeStatus)} {s s' : Decoding} {o : Option DecodeStatus}
    (h : linePhase limit tooLarge handle s = (.ok o, s')) : (o = some .needMore ∧ s' = s) ∨
      ∃ line rest, s.available = line ++ crlf ++ rest ∧ ¬ crlf <:+: line ∧
        line.length ≤ limit ∧ handle line (s.advance (line.length + 2)) = (.ok o, s') := by
  unfold linePhase at h
  cases hposition : crlfPosition s.available with
  | none =>
    simp only [hposition] at h
    split at h
    · cases h
    · cases h
      exact Or.inl ⟨rfl, rfl⟩
  | some position =>
    obtain ⟨hsplit, hle⟩ := crlfPosition_eq hposition
    have hlength : (s.available.take position).length = position := by
      rw [List.length_take]
      omega
    simp only [hposition] at h
    split at h
    · cases h
    · rename_i hlimit
      refine Or.inr ⟨s.available.take position, s.available.drop (position + 2), hsplit,
        crlf_not_infix_take hposition, by omega, ?_⟩
      rw [hlength]
      exact h

section Rounds

variable {K : Crates} {mode : AwsChunkedMode} {limits : ChunkedLimits} {stream : Bytes}
  {chunks : List WireChunk} {s s' : Decoding} {o : Option DecodeStatus}

theorem Standing.extend (h : Standing K mode limits stream chunks s) (hphase : s.phase ≠ .done)
    (bytes : Bytes) : Standing K mode limits (stream ++ bytes) chunks (s.extend bytes) := by
  obtain ⟨havailable, hle⟩ := extend_available s bytes h.bounded
  obtain ⟨input, offset, heq⟩ := extend_eq s bytes
  have hremains := h.remains
  rw [heq] at havailable hle ⊢
  have hlonger : ∀ {front}, stream = front ++ s.available →
      stream ++ bytes = front ++ input.drop offset := by
    intro front hstream
    rw [show input.drop offset = s.available ++ bytes from havailable, hstream, List.append_assoc]
  refine ⟨h.same_mode, h.same_limits, hle, h.distinct, h.fits, h.decoded, h.hashed, h.output,
    h.fresh, ?_⟩
  change Remains K mode limits (stream ++ bytes) chunks _ s.phase
  cases hp : s.phase with
  | header =>
    rw [hp] at hremains
    exact hlonger hremains
  | data =>
    rw [hp] at hremains
    obtain ⟨c, digits, text, hcurrent, hopened, hstream⟩ := hremains
    exact ⟨c, digits, text, hcurrent, hopened, hlonger hstream⟩
  | dataCrlf =>
    rw [hp] at hremains
    obtain ⟨c, digits, text, hcurrent, hopened, hstream, hfull⟩ := hremains
    exact ⟨c, digits, text, hcurrent, hopened, hlonger hstream, hfull⟩
  | trailers =>
    rw [hp] at hremains
    obtain ⟨final, lines, hending, htrailers, hbytes, hstream⟩ := hremains
    exact ⟨final, lines, hending, htrailers, hbytes, hlonger hstream⟩
  | done => exact absurd hp hphase

theorem available_behind {line rest : Bytes} (h : s.available = line ++ crlf ++ rest) :
    (s.advance (line.length + 2)).available = rest :=
  (drop_available s _).trans (line_length h).2

theorem Standing.headerPhase (h : Standing K mode limits stream chunks s)
    (hphase : s.phase = .header) (hround : Protocol.headerPhase K s = (.ok o, s')) :
    o ≠ some .done ∧ Standing K mode limits stream chunks s' := by
  have hstream : stream = chunkWires chunks ++ s.available := by
    have hremains := h.remains
    rwa [hphase] at hremains
  have hfresh := h.fresh (by rw [hphase]; rfl)
  rw [headerPhase_eq] at hround
  rcases linePhase_ok hround with ⟨rfl, rfl⟩ | ⟨line, rest, havailable, hline, hlimit, hhandle⟩
  · exact ⟨by simp, h⟩
  obtain ⟨hle, _⟩ := line_length havailable
  have hbounded : s.offset + (line.length + 2) ≤ s.input.length := offset_bounded h.bounded hle
  obtain ⟨rfl, size, signature, hannounces, hcases⟩ := headerLine_ok.mp hhandle
  obtain ⟨digits, text, hspells, htext, rfl, hsignature⟩ :=
    parseChunkHeader_ok.mp hannounces.parsed
  have hrest := available_behind havailable
  have hsize := hannounces.size_le
  have hadmits := hannounces.admits
  have hexpected := hannounces.expected
  change size ≤ min s.limits.maxChunkBytes maxBufferedChunkBytes at hsize
  change s.limits.admits s.decodedBytes size at hadmits
  change signatureExpected s.mode signature = _ at hexpected
  rw [h.same_limits] at hsize hlimit hadmits
  rw [h.same_mode] at hexpected
  rw [h.decoded] at hadmits
  refine ⟨by simp, ?_⟩
  rcases hcases with ⟨hpos, rfl⟩ | ⟨rfl, hauthentic, rfl⟩
  · refine ⟨h.same_mode, h.same_limits, hbounded, h.distinct, h.fits, h.decoded, h.hashed, h.output,
      fun _ => hfresh, _, digits, text, rfl,
      ⟨hspells, htext, hsignature, hlimit, hpos, hsize, hexpected⟩, ?_⟩
    change stream = _ ++ [] ++ (s.advance ((sizeLine digits text).length + 2)).available
    rw [hrest, hstream, havailable]
    simp only [List.append_assoc, List.append_nil]
  · change Authentic K s.mode s.previousSignature [] signature at hauthentic
    rw [h.same_mode, hfresh.1, hsignature] at hauthentic
    refine ⟨h.same_mode, h.same_limits, hbounded, h.distinct, h.fits, h.decoded, h.hashed, h.output,
      (by intro htakes; cases htakes), ⟨digits, text, []⟩, [],
      ⟨rfl, ⟨hspells, htext, hlimit, hsize, hadmits, hauthentic⟩, by simp, Nat.zero_le _, ?_⟩,
      hfresh.2.1, hfresh.2.2, ?_⟩
    · cases mode with
      | signed context => rfl
      | unsignedTrailer declared => simp
    · change stream = _ ++ (s.advance ((sizeLine digits text).length + 2)).available
      rw [hrest, hstream, havailable]
      simp only [WireChunk.header, ChunkedEncoding.trailerWires, List.flatMap_nil,
        List.append_assoc, List.append_nil]

theorem Standing.dataPhase (h : Standing K mode limits stream chunks s)
    (hphase : s.phase = .data) (hround : Protocol.dataPhase s = (.ok o, s')) :
    o ≠ some .done ∧ Standing K mode limits stream chunks s' := by
  have hremains := h.remains
  rw [hphase] at hremains
  obtain ⟨c, digits, text, hcurrent, hopened, hstream⟩ := hremains
  have hfresh := h.fresh (by rw [hphase]; rfl)
  rw [dataPhase_eq, hcurrent] at hround
  dsimp only at hround
  split at hround
  · cases hround
    exact ⟨by simp, h⟩
  · cases hround
    refine ⟨by simp, ?_⟩
    have hcount : min (c.size - c.data.length) s.available.length ≤ s.available.length :=
      Nat.min_le_right _ _
    have hsplit : stream = chunkWires chunks ++ sizeLine digits text ++ crlf
        ++ (c.receive s.available).data
        ++ s.input.drop (s.offset + min (c.size - c.data.length) s.available.length) := by
      rw [drop_available, hstream]
      simp only [CurrentChunk.receive, List.append_assoc, List.take_append_drop]
    have hreceived : Opened mode limits (c.receive s.available) digits text :=
      ⟨hopened.spells, hopened.hex_text, hopened.signature, hopened.header_le, hopened.size_pos,
        hopened.size_le, hopened.expected⟩
    refine ⟨h.same_mode, h.same_limits, offset_bounded h.bounded hcount, h.distinct, h.fits,
      h.decoded, h.hashed, h.output, fun _ => hfresh, ?_⟩
    by_cases hfull : (c.receive s.available).data.length = c.size
    · simp only [Decoding.received, hfull, if_true]
      exact ⟨_, digits, text, rfl, hreceived, hsplit, hfull⟩
    · simp only [Decoding.received, hfull, if_false, hphase]
      exact ⟨_, digits, text, rfl, hreceived, hsplit⟩

theorem Standing.dataCrlfPhase (h : Standing K mode limits stream chunks s)
    (hphase : s.phase = .dataCrlf) (hround : Protocol.dataCrlfPhase K s = (.ok o, s')) :
    o ≠ some .done ∧ ∃ chunks', Standing K mode limits stream chunks' s' := by
  have hremains := h.remains
  rw [hphase] at hremains
  obtain ⟨c, digits, text, hcurrent, hopened, hstream, hfull⟩ := hremains
  have hfresh := h.fresh (by rw [hphase]; rfl)
  rw [dataCrlfPhase_eq] at hround
  split at hround
  · cases hround
    exact ⟨by simp, chunks, h⟩
  split at hround
  · cases hround
  rename_i hlength hcrlf
  have havailable : s.available = [] ++ crlf ++ s.available.drop 2 := by
    rw [← not_not.mp hcrlf, List.nil_append, List.take_append_drop]
  have hexpected : ∀ c', (s.advance 2).current = some c' →
      signatureExpected (s.advance 2).mode c'.signature = .ok ⟨⟩ := by
    intro c' hc'
    cases hcurrent.symm.trans hc'
    change signatureExpected s.mode c.signature = _
    rw [h.same_mode]
    exact hopened.expected
  obtain ⟨rfl, c', hc', hauthentic, hadmits, rfl⟩ := (releaseChunk_ok hexpected).mp hround
  cases hcurrent.symm.trans hc'
  change Authentic K s.mode s.previousSignature c.data c.signature at hauthentic
  change s.limits.admits s.decodedBytes c.data.length at hadmits
  rw [h.same_mode, hfresh.1, hopened.signature] at hauthentic
  rw [h.same_limits, h.decoded] at hadmits
  have hspells := hopened.spells
  have hsize := hopened.size_le
  rw [← hfull] at hspells hsize
  have hdata : c.data ≠ [] := List.ne_nil_of_length_pos (hfull ▸ hopened.size_pos)
  have hfits : WireChunk.Fits K mode limits (0 + (chunkData chunks).length)
      (lastSignature mode.previousSignature chunks) ⟨digits, text, c.data⟩ := by
    rw [Nat.zero_add]
    exact ⟨hspells, hopened.hex_text, hopened.header_le, hsize, hadmits, hauthentic⟩
  refine ⟨by simp, chunks ++ [⟨digits, text, c.data⟩], h.same_mode, h.same_limits,
    offset_bounded h.bounded (by omega), h.distinct, chunksFit_append h.fits hdata hfits, ?_, ?_,
    ?_, ?_, ?_⟩
  · change s.decodedBytes + c.data.length = _
    rw [chunkData_append, List.length_append, h.decoded]
  · change s.hashed ++ c.data = _
    rw [chunkData_append, h.hashed]
  · change s.output ++ c.data = _
    rw [chunkData_append, h.output]
  · intro _
    refine ⟨?_, hfresh.2⟩
    change c.signature.or s.previousSignature = _
    rw [lastSignature_append, hfresh.1, hopened.signature]
    rfl
  · change stream = _ ++ s.input.drop (s.offset + 2)
    rw [drop_available, chunkWires_append, hstream]
    nth_rewrite 1 [havailable]
    simp only [WireChunk.wire, WireChunk.header, List.append_assoc, List.nil_append]

theorem Ending.append {final : WireChunk} {lines : List TrailerLine} {t : TrailerLine}
    {declared : List Bytes} (h : Ending K (.unsignedTrailer declared) limits chunks final lines)
    (hwell : t.WellFormed) (hcount : lines.length < limits.maxTrailers)
    (hnew : t.name ∉ lines.map (·.name)) (hdeclared : t.name ∈ declared) :
    Ending K (.unsignedTrailer declared) limits chunks final (lines ++ [t]) := by
  obtain ⟨hnodup, hnames⟩ := h.declared
  refine ⟨h.final_empty, h.final, ?_, ?_, ?_, ?_⟩
  · intro x hx
    rcases List.mem_append.mp hx with hx | hx
    · exact h.wellFormed x hx
    · rw [List.mem_singleton.mp hx]
      exact hwell
  · rw [List.length_append]
    exact hcount
  · rw [List.map_append, List.map_singleton, List.nodup_append]
    refine ⟨hnodup, List.nodup_singleton _, ?_⟩
    intro a ha b hb hab
    rw [List.mem_singleton.mp hb] at hab
    exact hnew (hab ▸ ha)
  · intro name hname
    rw [List.map_append, List.mem_append] at hname
    rcases hname with hname | hname
    · exact hnames name hname
    · rw [List.map_singleton, List.mem_singleton] at hname
      rw [hname]
      exact hdeclared

/-- At the end the lines are the declared checksums of the body, each once. -/
theorem Ending.valid {final : WireChunk} {lines : List TrailerLine} {d : AwsChunkedDecoder}
    (h : Ending K mode limits chunks final lines) (hdistinct : mode.Distinct)
    (hfits : ChunksFit K mode limits 0 mode.previousSignature chunks)
    (hmode : d.mode = mode) (hlimits : d.limits = limits)
    (hdecoded : d.decodedBytes = (chunkData chunks).length) (hhashed : d.hashed = chunkData chunks)
    (htrailers : d.trailers = lines.map (·.field))
    (hlt : (ChunkedEncoding.trailerWires lines).length + 2 < 2 ^ 64)
    (hle : (ChunkedEncoding.trailerWires lines).length + 2 ≤ limits.maxTrailerBytes)
    (hfinish : finishTrailers K d = .ok ⟨⟩) :
    (⟨chunks, final, lines⟩ : ChunkedEncoding).Valid K mode limits := by
  rw [finishTrailers_ok, hlimits, hdecoded, hmode, htrailers, hhashed] at hfinish
  obtain ⟨hlength, hsums⟩ := hfinish
  refine ⟨hfits, h.final_empty, h.final, hlength, h.wellFormed, h.count_le, hlt, hle, ?_⟩
  cases mode with
  | signed context => exact h.declared
  | unsignedTrailer declared =>
    obtain ⟨hnodup, hnames⟩ := h.declared
    -- a declared name is that of the trailer found for it
    have hfound : ∀ name ∈ declared, ∃ t ∈ lines, t.name = name ∧
        Checksum K (chunkData chunks) name t.value := by
      intro name hname
      obtain ⟨f, hf, hsum⟩ := hsums name hname
      obtain ⟨t, ht, rfl⟩ := List.mem_map.mp (List.mem_of_find?_eq_some hf)
      have htest := List.find?_some hf
      exact ⟨t, ht, of_decide_eq_true htest, hsum⟩
    constructor
    · rw [List.perm_ext_iff_of_nodup hnodup hdistinct]
      intro name
      constructor
      · exact hnames name
      · intro hname
        obtain ⟨t, ht, rfl, _⟩ := hfound name hname
        exact List.mem_map_of_mem ht
    · intro t ht
      obtain ⟨t', ht', hname, hsum⟩ := hfound t.name (hnames _ (List.mem_map_of_mem ht))
      have hsame : t' = t := List.inj_on_of_nodup_map hnodup ht' ht hname
      rw [hsame] at hsum
      exact hsum

theorem endOfBody_ok {last : Bool} (h : endOfBody last s = (.ok o, s')) :
    s' = s ∧ (last = true → s.available = [] ∧ o = some .done) ∧ (last = false → o = none) := by
  cases last with
  | false =>
    cases h
    exact ⟨rfl, (by intro hlast; cases hlast), fun _ => rfl⟩
  | true =>
    simp only [endOfBody, if_true, run_bind, run_get, run_ite, run_fail, run_pure] at h
    split at h
    · cases h
    · rename_i hempty
      cases h
      exact ⟨rfl, fun _ => ⟨not_not.mp hempty, rfl⟩, by intro hlast; cases hlast⟩

theorem Standing.trailersPhase (h : Standing K mode limits stream chunks s)
    (hphase : s.phase = .trailers) (hround : Protocol.trailersPhase K s = (.ok o, s')) :
    (o = some .done → s'.phase = .done) ∧ Standing K mode limits stream chunks s' := by
  have hremains := h.remains
  rw [hphase] at hremains
  obtain ⟨final, lines, hending, htrailers, hbytes, hstream⟩ := hremains
  rw [trailersPhase_eq] at hround
  rcases linePhase_ok hround with ⟨rfl, rfl⟩ | ⟨line, rest, havailable, hline, hlimit, hhandle⟩
  · exact ⟨(by intro hdone; cases hdone), h⟩
  obtain ⟨hle, _⟩ := line_length havailable
  have hbounded : s.offset + (line.length + 2) ≤ s.input.length := offset_bounded h.bounded hle
  have hrest := available_behind havailable
  rcases htrailer : trailerLine K line (s.advance (line.length + 2)) with ⟨e | last, s₁⟩
  · rw [run_bind, htrailer] at hhandle
    cases hhandle
  rw [run_bind, htrailer] at hhandle
  obtain ⟨rfl, hlast, hnext⟩ := endOfBody_ok hhandle
  obtain ⟨hlt, hmax, hcases⟩ := trailerLine_ok.mp htrailer
  change s.trailerBytes + (line.length + 2) < 2 ^ 64 at hlt
  change s.trailerBytes + (line.length + 2) ≤ s.limits.maxTrailerBytes at hmax
  rw [hbytes] at hlt hmax
  rw [h.same_limits] at hmax
  rcases hcases with ⟨rfl, rfl, hfinish, rfl⟩ | ⟨_, rfl, haccept⟩
  · obtain ⟨hend, rfl⟩ := hlast rfl
    have hvalid := hending.valid h.distinct h.fits h.same_mode h.same_limits h.decoded h.hashed
      htrailers hlt hmax hfinish
    refine ⟨fun _ => rfl, h.same_mode, h.same_limits, hbounded, h.distinct, h.fits, h.decoded,
      h.hashed, h.output, (by intro htakes; cases htakes), final, lines, hvalid, ?_⟩
    change (s.advance 2).available = [] at hend
    have hempty : rest = [] := hrest.symm.trans hend
    rw [hstream, havailable, hempty]
    simp only [ChunkedEncoding.wire, List.append_assoc, List.append_nil, List.nil_append]
  · obtain ⟨declared, name, value, hmode, hcount, hparsed, hnew, hdeclared, rfl⟩ :=
      acceptTrailer_ok.mp haccept
    obtain ⟨t, hwell, rfl, rfl, rfl⟩ := parseTrailer_ok.mp hparsed
    cases h.same_mode.symm.trans hmode
    change s.trailers.length < s.limits.maxTrailers at hcount
    change t.name ∉ s.trailers.map (·.name) at hnew
    rw [htrailers] at hnew hcount
    rw [h.same_limits, List.length_map] at hcount
    rw [List.map_map] at hnew
    refine ⟨(fun hdone => by rw [hnext rfl] at hdone; cases hdone), h.same_mode, h.same_limits,
      hbounded, h.distinct, h.fits, h.decoded, h.hashed, h.output, ?_, ?_⟩
    · intro htakes
      change s.phase.takesChunks = true at htakes
      rw [hphase] at htakes
      cases htakes
    change Remains K _ limits stream chunks _ s.phase
    rw [hphase]
    refine ⟨final, lines ++ [t], hending.append hwell hcount hnew hdeclared, ?_, ?_, ?_⟩
    · change s.trailers ++ [t.field] = _
      rw [htrailers, List.map_append, List.map_singleton]
    · change s.trailerBytes + (t.text.length + 2) = _
      rw [hbytes]
      simp [ChunkedEncoding.trailerWires, crlf]
    · change stream = _ ++ (s.advance (t.text.length + 2)).available
      rw [hrest, hstream, havailable]
      simp [ChunkedEncoding.trailerWires]

/-- **One round** that does not fail keeps the invariant. -/
theorem Standing.round (h : Standing K mode limits stream chunks s)
    (hround : decodeRound K s = (.ok o, s')) :
    (o = some .done → s'.phase = .done) ∧ ∃ chunks', Standing K mode limits stream chunks' s' := by
  rw [decodeRound_eq] at hround
  cases hphase : s.phase with
  | header =>
    rw [hphase] at hround
    obtain ⟨hne, hstanding⟩ := h.headerPhase hphase hround
    exact ⟨fun hdone => absurd hdone hne, chunks, hstanding⟩
  | data =>
    rw [hphase] at hround
    obtain ⟨hne, hstanding⟩ := h.dataPhase hphase hround
    exact ⟨fun hdone => absurd hdone hne, chunks, hstanding⟩
  | dataCrlf =>
    rw [hphase] at hround
    obtain ⟨hne, hstanding⟩ := h.dataCrlfPhase hphase hround
    exact ⟨fun hdone => absurd hdone hne, hstanding⟩
  | trailers =>
    rw [hphase] at hround
    obtain ⟨hdone, hstanding⟩ := h.trailersPhase hphase hround
    exact ⟨hdone, chunks, hstanding⟩
  | done =>
    rw [hphase] at hround
    cases hround
    exact ⟨fun _ => hphase, chunks, h⟩

end Rounds

/-! ## 3. Every point of every run -/

/-- The invariant at the points where the decoder has not failed; `Done` is only reported in
    the last phase. -/
def Stands (K : Crates) (mode : AwsChunkedMode) (limits : ChunkedLimits) (stream : Bytes)
    (s : Decoding) : Option (Except Fault DecodeStatus) → Prop
  | none => ∃ chunks, Standing K mode limits stream chunks s
  | some (.ok status) => (status = .done → s.phase = .done) ∧
      ∃ chunks, Standing K mode limits stream chunks s
  | some (.error _) => True

theorem standing_initial (K : Crates) {mode : AwsChunkedMode} (limits : ChunkedLimits)
    (hdistinct : mode.Distinct) :
    Standing K mode limits [] [] ⟨.initial mode limits, []⟩ where
  same_mode := rfl
  same_limits := rfl
  bounded := Nat.le_refl 0
  distinct := hdistinct
  fits := trivial
  decoded := rfl
  hashed := rfl
  output := rfl
  fresh := fun _ => ⟨rfl, rfl, rfl⟩
  remains := rfl

/-- **At every point of every run** that has not failed the invariant holds. -/
theorem DecodePoint.stands {K : Crates} {mode : AwsChunkedMode} {limits : ChunkedLimits}
    {stream : Bytes} {s : Decoding} {result : Option (Except Fault DecodeStatus)}
    (h : DecodePoint K mode limits stream s result) : Stands K mode limits stream s result := by
  induction h with
  | new hnew =>
    obtain ⟨hdistinct, rfl⟩ := distinct_of_new hnew
    exact ⟨(by intro hdone; cases hdone), [], standing_initial K limits hdistinct⟩
  | push bytes _ hphase ih =>
    obtain ⟨_, chunks, hstanding⟩ := ih
    exact ⟨chunks, hstanding.extend hphase bytes⟩
  | @pushDone stream s status bytes _ hphase ih =>
    obtain ⟨_, chunks, hstanding⟩ := ih
    split
    · rename_i hempty
      rw [List.isEmpty_iff.mp hempty, List.append_nil]
      exact ⟨fun _ => hphase, chunks, hstanding⟩
    · trivial
  | @round stream s s' r _ hround ih =>
    obtain ⟨chunks, hstanding⟩ := ih
    rcases r with e | (_ | status)
    · trivial
    · exact (hstanding.round hround).2
    · obtain ⟨hdone, hnext⟩ := hstanding.round hround
      exact ⟨fun hstatus => hdone (congrArg some hstatus), hnext⟩

/-- **Sound.**  The stream of a decoder that is done is a valid encoding of its output. -/
theorem DecodePoint.encoding {K : Crates} {mode : AwsChunkedMode} {limits : ChunkedLimits}
    {stream : Bytes} {s : Decoding} (h : DecodePoint K mode limits stream s (some (.ok .done))) :
    ∃ e : ChunkedEncoding, e.Valid K mode limits ∧ stream = e.wire ∧ s.output = e.body := by
  obtain ⟨hdone, chunks, hstanding⟩ := h.stands
  have hremains := hstanding.remains
  rw [hdone rfl] at hremains
  obtain ⟨final, lines, hvalid, hstream⟩ := hremains
  exact ⟨⟨chunks, final, lines⟩, hvalid, hstream, hstanding.output⟩

/-- **`aws-chunked` decoding is exact.**  A valid encoding that is pushed whole is decoded to
    its body; and where a decoder reports `Done`, however its input was cut, the input is a
    valid encoding of the output. -/
theorem chunked_decoding_exact {K : Crates} {mode : AwsChunkedMode} {limits : ChunkedLimits}
    {d : AwsChunkedDecoder} (hnew : AwsChunkedDecoder.new mode limits = .ok d) :
    (∀ e : ChunkedEncoding, e.Valid K mode limits →
      ∃ s, push K e.wire ⟨d, []⟩ = (.ok .done, s) ∧ s.output = e.body) ∧
    (∀ stream s, DecodePoint K mode limits stream s (some (.ok .done)) →
      ∃ e : ChunkedEncoding, e.Valid K mode limits ∧ stream = e.wire ∧ s.output = e.body) := by
  obtain ⟨hdistinct, rfl⟩ := distinct_of_new hnew
  constructor
  · intro e hvalid
    exact push_encoding hvalid hdistinct
  · intro stream s hpoint
    exact hpoint.encoding

/-- One bit of a cyclic redundancy check, with its polynomial written backwards. -/
def crcBit (poly r : Nat) : Nat := if r % 2 = 1 then r / 2 ^^^ poly else r / 2

/-- The check of 32 bits, in big-endian bytes. -/
def crcOf (poly : Nat) (data : Bytes) : Bytes :=
  let r := data.foldl (fun r b => (crcBit poly)^[8] (r ^^^ b.toNat)) 0xFFFFFFFF ^^^ 0xFFFFFFFF
  [24, 16, 8, 0].map fun shift => UInt8.ofNat (r >>> shift)

/-- CRC-32 and CRC-32C, and the base64 texts of the values that are used below. -/
def crcCrates : Crates :=
  { Crates.sample with
    crc32 := crcOf 0xEDB88320
    crc32c := crcOf 0x82F63B78
    base64Decode := fun text =>
      [(ascii "6Le+Qw==", [0xE8, 0xB7, 0xBE, 0x43]), (ascii "DUoRhQ==", [0x0D, 0x4A, 0x11, 0x85]),
        (ascii "yZRlqg==", [0xC9, 0x94, 0x65, 0xAA])].lookup text }

def helloMode : AwsChunkedMode :=
  .unsignedTrailer [ascii "x-amz-checksum-crc32", ascii "x-amz-checksum-crc32c"]

/-- Two chunks, and the checksums in the other order than they were declared in. -/
def helloEncoding : ChunkedEncoding where
  chunks := [⟨ascii "06", none, ascii "hello "⟩, ⟨ascii "5", none, ascii "world"⟩]
  final := ⟨ascii "0", none, []⟩
  trailers := [⟨ascii "x-amz-checksum-crc32c", ascii " ", ascii "yZRlqg==", [10], []⟩,
    ⟨ascii "x-amz-checksum-crc32", [], ascii "DUoRhQ==", [], ascii " "⟩]

theorem helloEncoding_valid : helloEncoding.Valid crcCrates helloMode {} where
  chunks := by
    refine ⟨by decide, ⟨⟨by decide, by decide, by decide, by decide⟩, ?_, by decide, by decide,
      ⟨by decide, by decide⟩, trivial⟩, by decide, ⟨⟨by decide, by decide, by decide, by decide⟩,
      ?_, by decide, by decide, ⟨by decide, by decide⟩, trivial⟩, trivial⟩
    all_goals
      intro t ht
      cases ht
  final_empty := rfl
  final := by
    refine ⟨⟨by decide, by decide, by decide, by decide⟩, ?_, by decide, by decide,
      ⟨by decide, by decide⟩, trivial⟩
    intro t ht
    cases ht
  length := by
    intro n hn
    cases hn
  wellFormed := by
    simp only [helloEncoding, List.forall_mem_cons]
    refine ⟨⟨by decide, by decide, by decide, by decide, by decide, by decide, Or.inr rfl⟩,
      ⟨by decide, by decide, by decide, by decide, by decide, by decide, Or.inl rfl⟩, ?_⟩
    intro t ht
    cases ht
  count_le := by decide
  bytes_lt := by decide
  bytes_le := by decide
  trailers := by
    refine ⟨.swap .., ?_⟩
    simp only [helloEncoding, List.forall_mem_cons]
    refine ⟨⟨.crc32c, rfl, by decide, by decide +kernel⟩,
      ⟨.crc32, rfl, by decide, by decide +kernel⟩, ?_⟩
    intro t ht
    cases ht

theorem chunked_decoding_exact_hello :
    AwsChunkedDecoder.new helloMode {} = .ok (.initial helloMode {}) ∧
    helloEncoding.wire = ascii "06\r\nhello \r\n5\r\nworld\r\n0\r\n"
      ++ ascii "x-amz-checksum-crc32c: yZRlqg==\n\r\nx-amz-checksum-crc32:DUoRhQ== \r\n\r\n" ∧
    ∃ s, push crcCrates helloEncoding.wire ⟨.initial helloMode {}, []⟩ = (.ok .done, s) ∧
      s.output = ascii "hello world" ∧ ∃ e : ChunkedEncoding, e.Valid crcCrates helloMode {} ∧
        helloEncoding.wire = e.wire ∧ s.output = e.body := by
  have hnew : AwsChunkedDecoder.new helloMode {} = .ok (.initial helloMode {}) := rfl
  obtain ⟨hcomplete, hsound⟩ := chunked_decoding_exact (K := crcCrates) hnew
  obtain ⟨s, hpush, houtput⟩ := hcomplete _ helloEncoding_valid
  have hpoint := (DecodePoint.new hnew).push_returns hpush
  exact ⟨hnew, by decide +kernel, s, hpush, houtput, hsound _ s hpoint⟩

end Pgs3.Protocol
