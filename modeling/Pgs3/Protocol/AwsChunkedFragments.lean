import Pgs3.Protocol.AwsChunkedSoundness

/-!
# Fragments of an `aws-chunked` body

A body reaches the decoder in fragments of any length, the empty one included.  Whether the
fragments make a difference is a question about the end of each fragment: what the decoder
does there, with the bytes it has, must be what it would do with the bytes that follow.

Two runs are compared round by round.  One has the bytes `A` before it, the other `A ++ F`
(`Follows`).  Each line of the protocol is first cut off the input and then handled by a
computation that does not look at the input any more (`Stateful.Commutes`).

The two runs part only where a fragment ends between the two bytes of the line end of a chunk
header that has the full length allowed (`CutsLongHeader`): the line is too long as long as
its line end is not seen.
-/

namespace Pgs3.Protocol

open Foundation Foundation.Stateful

/-! ## 1. What does not look at the input -/

/-- The same decoder, with other input. -/
def Decoding.located (s : Decoding) (input : Bytes) (offset : Nat) : Decoding :=
  { s with input, offset }

section Commuting

variable {K : Crates} {α : Type} {input : Bytes} {offset : Nat}

theorem commutes_fail (e : ChunkedError) :
    Commutes (·.located input offset) (fail e : DecodeM α) := fun _ => rfl

theorem commutes_orFail (r : Except ChunkedError α) :
    Commutes (·.located input offset) (orFail r : DecodeM α) := fun _ => rfl

theorem commutes_failIf {c : Prop} [Decidable c] {e : ChunkedError} {k : Unit → DecodeM α}
    (hk : Commutes (·.located input offset) (k ⟨⟩)) :
    Commutes (·.located input offset) (if c then fail e >>= k else k ⟨⟩) :=
  .ite (fun _ => rfl) hk

theorem commutes_verifyChunkSignature (data : Bytes) (signature : Digest32) :
    Commutes (·.located input offset) (verifyChunkSignature K data signature) := by
  apply Commutes.get_bind
  · exact fun _ => rfl
  · intro s
    cases s.mode with
    | unsignedTrailer declared => exact commutes_fail _
    | signed context =>
      cases s.previousSignature with
      | none => exact commutes_throw _
      | some previous => exact .ite (commutes_pure _) (commutes_fail _)

theorem commutes_chainSignature (data : Bytes) (signature : Option Digest32) :
    Commutes (·.located input offset) (chainSignature K data signature) := by
  cases signature with
  | none => exact commutes_pure _
  | some own =>
    apply Commutes.bind
    · exact commutes_verifyChunkSignature data own
    · exact fun _ => commutes_modify fun _ => rfl

theorem commutes_acceptDecoded (data : Bytes) :
    Commutes (·.located input offset) (acceptDecoded data) := by
  apply Commutes.get_bind
  · exact fun _ => rfl
  · intro s
    apply commutes_failIf
    apply Commutes.bind
    · exact commutes_modify fun _ => rfl
    · intro _
      apply commutes_failIf
      exact commutes_modify fun _ => rfl

theorem commutes_acceptTrailer (line : Bytes) :
    Commutes (·.located input offset) (acceptTrailer line) := by
  apply Commutes.get_bind
  · exact fun _ => rfl
  · intro s
    cases s.mode with
    | signed context => exact commutes_fail _
    | unsignedTrailer declared =>
      apply commutes_failIf
      apply Commutes.bind
      · exact commutes_orFail _
      · intro field
        apply commutes_failIf
        apply commutes_failIf
        exact commutes_modify fun _ => rfl

end Commuting

section CommutingLines

variable {K : Crates} {input : Bytes} {offset : Nat}

theorem commutes_headerLine (line : Bytes) :
    Commutes (·.located input offset) (headerLine K line) := by
  apply Commutes.get_bind
  · exact fun _ => rfl
  · intro s
    apply Commutes.bind
    · exact commutes_orFail _
    · rintro ⟨size, signature⟩
      apply commutes_failIf
      apply commutes_failIf
      apply Commutes.bind
      · exact commutes_orFail _
      · intro _
        apply Commutes.ite
        · apply Commutes.bind
          · exact commutes_chainSignature _ _
          · exact fun _ => .bind (commutes_modify fun _ => rfl) fun _ => commutes_pure _
        · exact .bind (commutes_modify fun _ => rfl) fun _ => commutes_pure _

theorem commutes_trailerLine (line : Bytes) :
    Commutes (·.located input offset) (trailerLine K line) := by
  apply Commutes.get_bind
  · exact fun _ => rfl
  · intro s
    apply commutes_failIf
    apply Commutes.bind
    · exact commutes_modify fun _ => rfl
    · intro _
      apply commutes_failIf
      apply Commutes.ite
      · apply Commutes.get_bind
        · exact fun _ => rfl
        · intro s₁
          apply Commutes.bind
          · exact commutes_orFail _
          · exact fun _ => .bind (commutes_modify fun _ => rfl) fun _ => commutes_pure _
      · exact .bind (commutes_acceptTrailer line) fun _ => commutes_pure _

theorem commutes_releaseChunk : Commutes (·.located input offset) (releaseChunk K) := by
  apply Commutes.get_bind
  · exact fun _ => rfl
  · intro s
    cases s.current with
    | none => exact commutes_throw _
    | some current =>
      apply Commutes.bind
      · exact commutes_modify fun _ => rfl
      · intro _
        apply Commutes.bind
        · exact commutes_chainSignature _ _
        · intro _
          apply Commutes.bind
          · exact commutes_acceptDecoded _
          · exact fun _ => .bind (commutes_modify fun _ => rfl) fun _ => commutes_pure _

end CommutingLines

theorem Commutes.location {α : Type} {m : DecodeM α}
    (h : ∀ {input offset}, Commutes (·.located input offset) m) (s : Decoding) :
    (m s).2.input = s.input ∧ (m s).2.offset = s.offset := by
  have hcommutes : Commutes (·.located s.input s.offset) m := h
  have heq := congrArg Prod.snd (hcommutes s)
  constructor
  · exact congrArg (·.input) heq
  · exact congrArg (·.offset) heq

/-! ## 2. The first line end -/

variable {a : Bytes} {position : Nat}

theorem crlfPosition_append (h : crlfPosition a = some position) (f : Bytes) :
    crlfPosition (a ++ f) = some position := by
  induction a generalizing position with
  | nil => cases h
  | cons b rest ih =>
    cases rest with
    | nil => cases h
    | cons c rest =>
      simp only [crlfPosition, List.cons_append] at h ⊢
      split at h
      · rename_i hbc
        rw [if_pos hbc]
        exact h
      · rename_i hbc
        obtain ⟨p, hp, rfl⟩ := Option.map_eq_some_iff.mp h
        rw [if_neg hbc, ← List.cons_append, ih hp]
        rfl

/-- A line end that only comes with more bytes is the last byte and the first new one, or
    lies further on. -/
theorem le_of_crlfPosition_append {f : Bytes} (hnone : crlfPosition a = none)
    (h : crlfPosition (a ++ f) = some position) : a.length ≤ position + 1 := by
  induction a generalizing position with
  | nil => exact Nat.zero_le _
  | cons b rest ih =>
    cases rest with
    | nil => exact Nat.succ_le_succ (Nat.zero_le _)
    | cons c rest =>
      simp only [crlfPosition, List.cons_append] at h hnone
      split at hnone
      · cases hnone
      · rename_i hbc
        rw [if_neg hbc] at h
        obtain ⟨p, hp, rfl⟩ := Option.map_eq_some_iff.mp h
        have hrest := ih (Option.map_eq_none_iff.mp hnone) hp
        simp only [List.length_cons] at hrest ⊢
        omega

/-! ## 3. Two runs side by side -/

/-- The second decoder is like the first, with `f` behind the input of the first. -/
structure Follows (f : Bytes) (s t : Decoding) : Prop where
  located : t = s.located t.input t.offset
  available : t.available = s.available ++ f

/-- The outcomes agree in what the caller sees of them. -/
def Alike (s t : Decoding) : Prop := t.output = s.output ∧ t.trailers = s.trailers

theorem alike_located (s : Decoding) (input : Bytes) (offset : Nat) :
    Alike s (s.located input offset) := ⟨rfl, rfl⟩

section Rounds

variable {K : Crates} {f : Bytes} {s t : Decoding}

theorem Follows.fields (h : Follows f s t) :
    t.phase = s.phase ∧ t.limits = s.limits ∧ t.current = s.current ∧ t.mode = s.mode := by
  rw [h.located]
  exact ⟨rfl, rfl, rfl, rfl⟩

/-- What does not look at the input does the same in both runs, after the same bytes. -/
theorem Follows.run {m : DecodeM α} (h : Follows f s t)
    (hm : ∀ {input offset}, Commutes (·.located input offset) m) {n : Nat}
    (hn : n ≤ s.available.length) :
    ∃ t', m (t.advance n) = ((m (s.advance n)).1, t') ∧ Follows f (m (s.advance n)).2 t' := by
  have hlocated : t.advance n = (s.advance n).located t.input (t.offset + n) := by
    rw [h.located]
    rfl
  rw [hlocated]
  refine ⟨_, hm (s.advance n), rfl, ?_⟩
  obtain ⟨hinput, hoffset⟩ := Commutes.location hm (s.advance n)
  change t.input.drop (t.offset + n) = (m (s.advance n)).2.input.drop (m (s.advance n)).2.offset ++ f
  rw [hinput, hoffset]
  change t.input.drop (t.offset + n) = s.input.drop (s.offset + n) ++ f
  rw [drop_available, drop_available, h.available, List.drop_append_of_le_length hn]

/-- A line that is complete is handled in the same way in both runs. -/
theorem Follows.linePhase (h : Follows f s t) (limit : Nat) (tooLarge : ChunkedError)
    {handle : Bytes → DecodeM (Option DecodeStatus)}
    (hhandle : ∀ {line input offset}, Commutes (·.located input offset) (handle line))
    (hposition : crlfPosition s.available = some position) :
    ∃ t', Protocol.linePhase limit tooLarge handle t
        = ((Protocol.linePhase limit tooLarge handle s).1, t') ∧
      Follows f (Protocol.linePhase limit tooLarge handle s).2 t' := by
  have hposition' : crlfPosition t.available = some position := by
    rw [h.available]
    exact crlfPosition_append hposition f
  have hle := (crlfPosition_eq hposition).2
  simp only [Protocol.linePhase, hposition, hposition']
  split
  · exact ⟨t, rfl, h⟩
  · have hline : t.available.take position = s.available.take position := by
      rw [h.available, List.take_append_of_le_length (by omega)]
    rw [hline]
    exact h.run hhandle hle

/-- A line that is too long without its end is too long with it; unless it has exactly the
    length allowed and its end is cut in two. -/
theorem Follows.tooLarge (h : Follows f s t) {limit : Nat} (tooLarge : ChunkedError)
    (handle : Bytes → DecodeM (Option DecodeStatus))
    (hnone : crlfPosition s.available = none) (hlong : limit < s.available.length) :
    Protocol.linePhase limit tooLarge handle t = (.error (.error tooLarge), t) ∨
      crlfPosition t.available = some limit := by
  have hlen : limit < t.available.length := by
    rw [h.available, List.length_append]
    omega
  cases hposition : crlfPosition t.available with
  | none =>
    simp only [Protocol.linePhase, hposition, hlen, if_true, true_or]
  | some position =>
    by_cases hlt : limit < position
    · simp only [Protocol.linePhase, hposition, hlt, if_true, true_or]
    · rw [h.available] at hposition
      have hle := le_of_crlfPosition_append hnone hposition
      have heq : position = limit := by omega
      exact Or.inr (by rw [heq])

theorem Follows.linePhase_wait {limit : Nat} {tooLarge : ChunkedError}
    {handle : Bytes → DecodeM (Option DecodeStatus)} (h : Follows [] s t)
    (hnone : crlfPosition s.available = none) (hshort : ¬ limit < s.available.length) :
    Protocol.linePhase limit tooLarge handle t = (.ok (some .needMore), t) := by
  have havailable : t.available = s.available := by rw [h.available, List.append_nil]
  simp only [Protocol.linePhase, havailable, hnone, hshort, if_false]

/-- The end of a fragment cuts the end of a chunk header in two that has exactly the length
    allowed. -/
def CutsLongHeader (f : Bytes) (s : Decoding) : Prop :=
  s.phase = .header ∧ crlfPosition s.available = none ∧
    s.limits.maxChunkHeaderBytes < s.available.length ∧
    crlfPosition (s.available ++ f) = some s.limits.maxChunkHeaderBytes

/-- What a round of the second run does when the first run's round ends as given. -/
def Echo (K : Crates) (f : Bytes) (s t : Decoding) :
    Except Fault (Option DecodeStatus) × Decoding → Prop
  | (.ok none, s') => ∃ t', Follows f s' t' ∧ decodeLoop K t = decodeLoop K t'
  | (.ok (some .needMore), s') => s' = s ∧
      (f = [] → decodeRound K t = (.ok (some .needMore), t))
  | (.ok (some .done), s') => s'.phase = .done ∧ s'.available = [] ∧ ∃ t', Alike s' t' ∧
      t'.phase = .done ∧
      decodeRound K t
        = (if f = [] then .ok (some .done) else .error (.error .inputAfterEnd), t')
  | (.error e, s') => CutsLongHeader f s ∨ ∃ t', decodeRound K t = (.error e, t') ∧ Alike s' t'

theorem Follows.alike (h : Follows f s t) : Alike s t := by
  rw [h.located]
  exact alike_located s _ _

theorem echo_of_same {r : Except Fault (Option DecodeStatus)} {s' t' : Decoding}
    (hround : decodeRound K t = (r, t')) (h : Follows f s' t') (hr : ∀ a, r ≠ .ok (some a)) :
    Echo K f s t (r, s') := by
  rcases r with e | (_ | a)
  · exact Or.inr ⟨t', hround, h.alike⟩
  · exact ⟨t', h, loop_next hround⟩
  · exact absurd rfl (hr a)

/-- The computation never makes `push` return normally. -/
def Continues (m : DecodeM (Option DecodeStatus)) : Prop := ∀ s a, (m s).1 ≠ .ok (some a)

theorem Continues.of_bind {β : Type} {m : DecodeM β} {k : β → DecodeM (Option DecodeStatus)}
    (hk : ∀ b, Continues (k b)) : Continues (m >>= k) := by
  intro s a
  rw [run_bind]
  rcases m s with ⟨e | b, s'⟩
  · simp
  · exact hk b s' a

theorem Continues.ite {c : Prop} [Decidable c] {m m' : DecodeM (Option DecodeStatus)}
    (hm : Continues m) (hm' : Continues m') : Continues (if c then m else m') := by
  split
  · exact hm
  · exact hm'

theorem continues_none : Continues (pure none) := by
  intro s a
  simp [run_pure]

theorem headerLine_continues (line : Bytes) : Continues (headerLine K line) := by
  refine .of_bind fun s => .of_bind fun header => ?_
  have hend : Continues (if header.1 = 0 then
        chainSignature K [] header.2 >>= fun _ =>
          (modify fun s => { s with phase := .trailers }) >>= fun _ => pure none
      else (modify fun s => { s with
        current := some ⟨header.1, [], header.2, Nat.zero_le _⟩
        phase := .data }) >>= fun _ => pure none) := by
    apply Continues.ite
    · exact .of_bind fun _ => .of_bind fun _ => continues_none
    · exact .of_bind fun _ => continues_none
  have hexpected := Continues.of_bind (m := orFail (signatureExpected s.mode header.2))
    fun _ => hend
  have htotal := Continues.ite (c := 2 ^ 64 ≤ s.decodedBytes + header.1 ∨
    s.limits.exceeded (s.decodedBytes + header.1))
    (.of_bind (m := fail .decodedBodyTooLarge) fun _ : Unit => hexpected) hexpected
  exact .ite (.of_bind fun _ => htotal) htotal

theorem releaseChunk_continues : Continues (releaseChunk K) := by
  refine .of_bind fun s => ?_
  cases s.current with
  | none =>
    intro s' a
    simp [run_throw]
  | some current =>
    exact .of_bind fun _ => .of_bind fun _ => .of_bind fun _ => .of_bind fun _ => continues_none

theorem echo_header (h : Follows f s t) (hphase : s.phase = .header) :
    Echo K f s t (headerPhase K s) := by
  have hround : decodeRound K t =
      Protocol.linePhase s.limits.maxChunkHeaderBytes .headerTooLarge (headerLine K) t := by
    rw [decodeRound_eq, h.fields.1, hphase, ← h.fields.2.1]
    exact headerPhase_eq K t
  rw [headerPhase_eq]
  cases hposition : crlfPosition s.available with
  | none =>
    simp only [Protocol.linePhase, hposition]
    split
    · rename_i hlong
      rcases h.tooLarge .headerTooLarge (headerLine K) hposition hlong
        with herror | hcut
      · exact Or.inr ⟨t, hround.trans herror, h.alike⟩
      · rw [h.available] at hcut
        exact Or.inl ⟨hphase, hposition, hlong, hcut⟩
    · rename_i hshort
      refine ⟨rfl, ?_⟩
      rintro rfl
      exact hround.trans (h.linePhase_wait hposition hshort)
  | some position =>
    obtain ⟨t', hrun, hfollows⟩ := h.linePhase s.limits.maxChunkHeaderBytes .headerTooLarge
      (commutes_headerLine (K := K) _) hposition
    have hcontinues : ∀ a, (Protocol.linePhase s.limits.maxChunkHeaderBytes .headerTooLarge
        (headerLine K) s).1 ≠ .ok (some a) := by
      intro a
      simp only [Protocol.linePhase, hposition]
      split
      · simp
      · exact headerLine_continues _ _ _
    exact echo_of_same (hround.trans hrun) hfollows hcontinues

theorem echo_dataCrlf (h : Follows f s t) (hphase : s.phase = .dataCrlf) :
    Echo K f s t (dataCrlfPhase K s) := by
  have hround : decodeRound K t = dataCrlfPhase K t := by
    rw [decodeRound_eq, h.fields.1, hphase]
  rw [dataCrlfPhase_eq] at hround ⊢
  by_cases hlen : s.available.length < 2
  · rw [if_pos hlen]
    refine ⟨rfl, ?_⟩
    rintro rfl
    have hlen' : t.available.length < 2 := by rwa [h.available, List.append_nil]
    rw [hround, if_pos hlen']
  · have hlen' : ¬ t.available.length < 2 := by
      rw [h.available, List.length_append]
      omega
    have htake : t.available.take 2 = s.available.take 2 := by
      rw [h.available, List.take_append_of_le_length (by omega)]
    rw [if_neg hlen', htake] at hround
    rw [if_neg hlen]
    by_cases hcrlf : s.available.take 2 ≠ crlf
    · rw [if_pos hcrlf] at hround ⊢
      exact Or.inr ⟨t, hround, h.alike⟩
    · rw [if_neg hcrlf] at hround ⊢
      obtain ⟨t', hrun, hfollows⟩ := h.run (n := 2) (commutes_releaseChunk (K := K)) (by omega)
      exact echo_of_same (hround.trans hrun) hfollows (releaseChunk_continues _)

variable {current : CurrentChunk}

theorem receive_append (h : current.size - current.data.length ≤ a.length) (f : Bytes) :
    current.receive (a ++ f) = current.receive a := by
  have hmin : min (current.size - current.data.length) (a ++ f).length
      = min (current.size - current.data.length) a.length := by
    rw [List.length_append]
    omega
  have htake : (a ++ f).take (min (current.size - current.data.length) a.length)
      = a.take (min (current.size - current.data.length) a.length) :=
    List.take_append_of_le_length (by omega)
  simp only [CurrentChunk.receive, hmin, htake]

theorem receive_part (h : a.length < current.size - current.data.length) :
    (current.receive a).data = current.data ++ a := by
  simp only [CurrentChunk.receive]
  rw [List.take_of_length_le (by omega)]

theorem receive_receive (h : a.length < current.size - current.data.length) (f : Bytes) :
    (current.receive a).receive f = current.receive (a ++ f) := by
  have hfirst := receive_part h
  have hsecond : (a ++ f).take (min (current.size - current.data.length) (a ++ f).length)
      = a ++ f.take (min (current.size - (current.data ++ a).length) f.length) := by
    rw [List.take_append, List.take_of_length_le (by rw [List.length_append]; omega)]
    congr 2
    simp only [List.length_append]
    omega
  have hdata : ((current.receive a).receive f).data = (current.receive (a ++ f)).data := by
    have hsize : (current.receive a).size = current.size := rfl
    calc ((current.receive a).receive f).data
        = (current.receive a).data ++ f.take
            (min ((current.receive a).size - (current.receive a).data.length) f.length) := rfl
      _ = current.data ++ (a ++ f.take
            (min (current.size - (current.data ++ a).length) f.length)) := by
          rw [hfirst, hsize, List.append_assoc]
      _ = (current.receive (a ++ f)).data := by rw [← hsecond]; rfl
  have hext : ∀ {c d : CurrentChunk}, c.size = d.size → c.data = d.data →
      c.signature = d.signature → c = d := by
    rintro ⟨_, _, _, _⟩ ⟨_, _, _, _⟩ rfl rfl rfl
    rfl
  exact hext rfl hdata rfl

theorem Follows.received (h : Follows f s t)
    (hfull : current.size - current.data.length ≤ s.available.length ∨ f = []) :
    Follows f (s.received current) (t.received current) := by
  have hsame : current.receive t.available = current.receive s.available := by
    rw [h.available]
    rcases hfull with hfull | rfl
    · exact receive_append hfull f
    · rw [List.append_nil]
  have hcount : min (current.size - current.data.length) t.available.length
      = min (current.size - current.data.length) s.available.length := by
    rw [h.available, List.length_append]
    rcases hfull with hfull | rfl
    · omega
    · rfl
  have hphase := h.fields.1
  constructor
  · simp only [Decoding.received, hsame, hphase]
    rw [h.located]
    rfl
  · change t.input.drop (t.offset + _) = s.input.drop (s.offset + _) ++ f
    rw [drop_available, drop_available, hcount, h.available,
      List.drop_append_of_le_length (by omega)]

/-- All of the input is data: what comes behind it is received after it. -/
theorem Follows.received_part (h : Follows f s t)
    (hpart : s.available.length < current.size - current.data.length) :
    ∃ t', Follows f (s.received current) t' ∧ t'.current = some (current.receive s.available) ∧
      t'.phase = s.phase ∧ t'.available = f ∧
      t'.received (current.receive s.available) = t.received current := by
  have hdata := receive_part hpart
  have hmissing : (current.receive s.available).data.length ≠ current.size := by
    rw [hdata, List.length_append]
    omega
  have hphase : (s.received current).phase = s.phase := if_neg hmissing
  have hconsumed : (s.received current).available = [] := by
    change s.input.drop (s.offset + _) = []
    rw [drop_available, List.drop_eq_nil_of_le (by omega)]
  have hrest : t.input.drop (t.offset + s.available.length) = f := by
    rw [drop_available, h.available, List.drop_left]
  refine ⟨(s.received current).located t.input (t.offset + s.available.length),
    ⟨rfl, ?_⟩, rfl, hphase, hrest, ?_⟩
  · rw [hconsumed]
    exact hrest
  · -- the same chunk at the same place of the input
    have hchunk : (current.receive s.available).receive f = current.receive t.available := by
      rw [h.available]
      exact receive_receive hpart f
    have hoffset : t.offset + s.available.length
          + min (current.size - (current.receive s.available).data.length) f.length
        = t.offset + min (current.size - current.data.length) t.available.length := by
      rw [hdata, h.available, List.length_append, List.length_append]
      omega
    have hstate : (s.received current).located t.input (t.offset + s.available.length)
        = { t with
          current := some (current.receive s.available)
          offset := t.offset + s.available.length } := by
      simp only [Decoding.received, if_neg hmissing]
      rw [h.located]
      rfl
    rw [hstate]
    unfold Decoding.received
    change ({ t with
        current := some ((current.receive s.available).receive
          (t.input.drop (t.offset + s.available.length)))
        offset := t.offset + s.available.length
          + min (current.size - (current.receive s.available).data.length)
            (t.input.drop (t.offset + s.available.length)).length
        phase := if ((current.receive s.available).receive
            (t.input.drop (t.offset + s.available.length))).data.length = current.size
          then .dataCrlf else t.phase } : Decoding) = _
    rw [hrest, hchunk, hoffset]

theorem echo_data (h : Follows f s t) (hphase : s.phase = .data) : Echo K f s t (dataPhase s) := by
  obtain ⟨hphase', _, hcurrent', _⟩ := h.fields
  rw [hphase] at hphase'
  rw [dataPhase_eq]
  cases hcurrent : s.current with
  | none =>
    have hround : decodeRound K t = (.error .panic, t) := by
      rw [decodeRound_eq, hphase']
      simp only [dataPhase_eq, hcurrent', hcurrent]
    exact Or.inr ⟨t, hround, h.alike⟩
  | some current =>
    rw [hcurrent] at hcurrent'
    by_cases hlen : s.available.length = 0
    · simp only [hlen, if_true]
      refine ⟨rfl, ?_⟩
      rintro rfl
      have hlen' : t.available.length = 0 := by rwa [h.available, List.append_nil]
      rw [decodeRound_eq, hphase']
      simp only [dataPhase_eq, hcurrent', hlen', if_true]
    · simp only [hlen, if_false]
      have hsome : t.available ≠ [] := by
        intro hempty
        rw [h.available] at hempty
        exact hlen (by rw [(List.append_eq_nil_iff.mp hempty).1]; rfl)
      have hround := data_round (K := K) hphase' hcurrent' hsome
      by_cases hfull : current.size - current.data.length ≤ s.available.length ∨ f = []
      · exact ⟨_, h.received hfull, loop_next hround⟩
      · rw [not_or, not_le] at hfull
        obtain ⟨t', hfollows, hcurrent₁, hphase₁, havailable₁, hsame⟩ := h.received_part hfull.1
        have hround₁ := data_round (K := K) (hphase₁.trans hphase) hcurrent₁
          (by rw [havailable₁]; exact hfull.2)
        rw [hsame] at hround₁
        exact ⟨t', hfollows, (loop_next hround).trans (loop_next hround₁).symm⟩

theorem trailerLine_last {line : Bytes} {s' : Decoding}
    (h : trailerLine K line s = (.ok true, s')) : s'.phase = .done := by
  have hwp : wp (trailerLine K line) (fun last s' => last = true → s'.phase = .done)
      (fun _ _ => True) s := by
    simp only [trailerLine, wp_bind, wp_get, wp_ite, wp_fail, wp_modify]
    refine ⟨fun _ => trivial, fun _ => ⟨fun _ => trivial, fun _ => ⟨fun _ => ?_, fun _ => ?_⟩⟩⟩
    · refine wp_orFail (fun _ _ => ?_) fun _ => trivial
      simp only [wp_bind, wp_modify, wp_pure, implies_true]
    · refine wp_acceptTrailer (fun _ _ _ => ?_) fun _ => trivial
      rw [wp_pure]
      exact fun hfalse => absurd hfalse (by simp)
  exact wp_run hwp h rfl

/-- A line as long as all trailers together may be is too long with its line end. -/
theorem trailerLine_tooLarge (line : Bytes) (h : line.length = s.limits.maxTrailerBytes) :
    ∃ s', trailerLine K line s = (.error (.error .trailerTooLarge), s') ∧ Alike s s' := by
  simp only [trailerLine, run_bind, run_get, run_ite, run_fail, run_modify]
  by_cases hmax : 2 ^ 64 ≤ s.trailerBytes + (line.length + 2)
  · simp only [hmax, if_true]
    exact ⟨s, rfl, rfl, rfl⟩
  · have hlimit : s.limits.maxTrailerBytes < s.trailerBytes + (line.length + 2) := by omega
    simp only [hmax, if_false, hlimit, if_true]
    exact ⟨_, rfl, rfl, rfl⟩

theorem echo_endOfBody {t₁ s₁ : Decoding} {last : Bool} (h : Follows f s₁ t₁)
    (hlast : last = true → s₁.phase = .done) (hround : decodeRound K t = endOfBody last t₁) :
    Echo K f s t (endOfBody last s₁) := by
  simp only [endOfBody, run_ite, run_bind, run_get, run_fail, run_pure] at hround ⊢
  cases last with
  | false => exact ⟨t₁, h, loop_next hround⟩
  | true =>
    simp only [if_true] at hround ⊢
    by_cases hrest : s₁.available = []
    · have hrest' : t₁.available = f := by rw [h.available, hrest, List.nil_append]
      simp only [hrest, ne_eq, not_true_eq_false, if_false]
      refine ⟨hlast rfl, hrest, t₁, h.alike, h.fields.1.trans (hlast rfl), ?_⟩
      rw [hround, hrest']
      by_cases hf : f = []
      · simp only [hf, ne_eq, not_true_eq_false, if_false, if_true]
      · simp only [hf, ne_eq, not_false_eq_true, if_true, if_false]
    · have hrest' : t₁.available ≠ [] := by
        rw [h.available]
        exact fun hnil => hrest (List.append_eq_nil_iff.mp hnil).1
      simp only [ne_eq, hrest', not_false_eq_true, if_true] at hround
      simp only [ne_eq, hrest, not_false_eq_true, if_true]
      exact Or.inr ⟨t₁, hround, h.alike⟩

theorem echo_trailers (h : Follows f s t) (hphase : s.phase = .trailers) :
    Echo K f s t (trailersPhase K s) := by
  have hround : decodeRound K t = Protocol.linePhase s.limits.maxTrailerBytes .trailerTooLarge
      (fun line => trailerLine K line >>= endOfBody) t := by
    rw [decodeRound_eq, h.fields.1, hphase, ← h.fields.2.1]
    exact trailersPhase_eq K t
  rw [trailersPhase_eq]
  cases hposition : crlfPosition s.available with
  | none =>
    simp only [Protocol.linePhase, hposition]
    split
    · rename_i hlong
      rcases h.tooLarge .trailerTooLarge (fun line => trailerLine K line >>= endOfBody)
        hposition hlong
        with herror | hcut
      · exact Or.inr ⟨t, hround.trans herror, h.alike⟩
      · -- the line is complete now, and counted together with its end
        have hlen : (t.available.take s.limits.maxTrailerBytes).length
            = s.limits.maxTrailerBytes := by
          rw [List.length_take]
          have := (crlfPosition_eq hcut).2
          omega
        obtain ⟨t', hrun, halike⟩ := trailerLine_tooLarge (K := K)
          (s := t.advance (s.limits.maxTrailerBytes + 2))
          (t.available.take s.limits.maxTrailerBytes)
          (hlen.trans (congrArg (·.maxTrailerBytes) h.fields.2.1.symm))
        simp only [Protocol.linePhase, hcut, lt_irrefl, if_false, run_bind, hrun] at hround
        exact Or.inr ⟨t', hround, halike.1.trans h.alike.1, halike.2.trans h.alike.2⟩
    · rename_i hshort
      refine ⟨rfl, ?_⟩
      rintro rfl
      exact hround.trans (h.linePhase_wait hposition hshort)
  | some position =>
    have hposition' : crlfPosition t.available = some position := by
      rw [h.available]
      exact crlfPosition_append hposition f
    have hle := (crlfPosition_eq hposition).2
    have hline : t.available.take position = s.available.take position := by
      rw [h.available, List.take_append_of_le_length (by omega)]
    simp only [Protocol.linePhase, hposition, hposition', hline] at hround ⊢
    split at hround
    · rename_i hlong
      rw [if_pos hlong]
      exact Or.inr ⟨t, hround, h.alike⟩
    · rename_i hlong
      rw [if_neg hlong]
      obtain ⟨t₁, hrun, hfollows⟩ := h.run (n := position + 2)
        (commutes_trailerLine (K := K) (s.available.take position)) hle
      rw [run_bind, hrun] at hround
      rw [run_bind]
      rcases hfirst : trailerLine K (s.available.take position) (s.advance (position + 2))
        with ⟨e | last, s₁⟩
      · rw [hfirst] at hround hfollows
        exact Or.inr ⟨t₁, hround, hfollows.alike⟩
      · rw [hfirst] at hround hfollows
        refine echo_endOfBody hfollows ?_ hround
        rintro rfl
        exact trailerLine_last hfirst

/-- **One round of both runs.** -/
theorem echo_round (h : Follows f s t) (hphase : s.phase ≠ .done) :
    Echo K f s t (decodeRound K s) := by
  rw [decodeRound_eq]
  cases hp : s.phase with
  | header => exact echo_header h hp
  | data => exact echo_data h hp
  | dataCrlf => exact echo_dataCrlf h hp
  | trailers => exact echo_trailers h hp
  | done => exact absurd hp hphase

theorem phase_ne_done {s' : Decoding} (h : decodeRound K s = (.ok none, s')) :
    s'.phase ≠ .done := by
  have hround : wp (decodeRound K) (fun o s' => o = none → s'.phase ≠ .done)
      (fun _ _ => True) s := by
    simp only [decodeRound, wp_bind, wp_get]
    split
    · apply wp_headerPhase
      · exact fun hnone => absurd hnone (by simp)
      · exact fun _ _ _ => trivial
      · exact fun _ _ _ _ _ _ _ _ _ _ => by simp
      · exact fun _ _ _ _ _ _ _ _ _ _ => by simp
    · rename_i hphase
      apply wp_dataPhase
      · exact fun hnone => absurd hnone (by simp)
      · exact fun _ => trivial
      · intro current _ _ _
        dsimp only
        split
        · simp
        · simp [hphase]
    · apply wp_dataCrlfPhase
      · exact fun hnone => absurd hnone (by simp)
      · exact fun _ _ _ => trivial
      · exact fun _ _ _ _ _ _ _ => by simp
    · rename_i hphase
      apply wp_trailersPhase
      · exact fun hnone => absurd hnone (by simp)
      · exact fun _ _ _ => trivial
      · exact fun _ _ _ _ _ _ _ _ => by simp [hphase]
      · exact fun _ _ hnone => absurd hnone (by simp)
    · exact fun hnone => absurd hnone (by simp)
  exact wp_run hround h rfl

/-- What the loop of the second run has answered when the first run's loop ends as given. -/
def LoopEcho (K : Crates) (f : Bytes) (answer : Except Fault DecodeStatus × Decoding) :
    Except Fault DecodeStatus × Decoding → Prop
  | (.ok .needMore, s') => s'.phase ≠ .done ∧ ∃ t', Follows f s' t' ∧
      answer = decodeLoop K t' ∧ (f = [] → answer = (.ok .needMore, t'))
  | (.ok .done, s') => s'.phase = .done ∧ s'.available = [] ∧ ∃ t', Alike s' t' ∧
      t'.phase = .done ∧
      answer = (if f = [] then .ok .done else .error (.error .inputAfterEnd), t')
  | (.error e, s') => ∃ t', answer = (.error e, t') ∧ Alike s' t'

/-- **Both runs to the end of the fragment**, as long as no long header is cut. -/
theorem echo_loop {I : Decoding → Prop} (hI : ∀ u u', I u → decodeRound K u = (.ok none, u') → I u')
    (hcut : ∀ u, I u → ¬ CutsLongHeader f u) (h : Follows f s t) (hphase : s.phase ≠ .done)
    (hs : I s) : LoopEcho K f (decodeLoop K t) (decodeLoop K s) := by
  -- the measure of the loop carries the induction
  induction hn : s.todo using Nat.strongRecOn generalizing s t with
  | ind n ih =>
    have hecho := echo_round (K := K) h hphase
    rcases hround : decodeRound K s with ⟨e | (_ | status), s'⟩
    · rw [hround] at hecho
      rw [decodeLoop, loop_fail hround]
      rcases hecho with hlong | ⟨t', ht', halike⟩
      · exact absurd hlong (hcut s hs)
      · exact ⟨t', loop_fail ht', halike⟩
    · rw [hround] at hecho
      obtain ⟨t', hfollows, hloop⟩ := hecho
      have hlower := decodeRound_decreases K hround
      have hrest := ih s'.todo (hn ▸ hlower) hfollows (phase_ne_done hround)
        (hI s s' hs hround) rfl
      have hnext : decodeLoop K s = decodeLoop K s' := loop_next hround
      rw [hloop, hnext]
      exact hrest
    · rw [hround] at hecho
      have hend : decodeLoop K s = (.ok status, s') := loop_return hround
      rw [hend]
      cases status with
      | needMore =>
        obtain ⟨rfl, hwait⟩ := hecho
        exact ⟨hphase, t, h, rfl, fun hf => loop_return (hwait hf)⟩
      | done =>
        obtain ⟨hdone, hempty, t', halike, hdone', ht'⟩ := hecho
        refine ⟨hdone, hempty, t', halike, hdone', ?_⟩
        by_cases hf : f = []
        · simp only [hf, if_true] at ht' ⊢
          exact loop_return ht'
        · simp only [hf, if_false] at ht' ⊢
          exact loop_fail ht'

end Rounds

/-! ## 4. All ways to cut a body -/

/-- A run: the calls of `push` up to the first error, and `finish` behind them. -/
def feed (K : Crates) : List Bytes → DecodeM Unit
  | [] => finish
  | bytes :: fragments => push K bytes >>= fun _ => feed K fragments

def seen (run : Except Fault Unit × Decoding) :
    Except Fault Unit × Bytes × List DecodedTrailer :=
  (run.1, run.2.output, run.2.trailers)

/-- Result, output and trailers when the fragments are pushed one by one. -/
def outcome (K : Crates) (d : AwsChunkedDecoder) (fragments : List Bytes) :
    Except Fault Unit × Bytes × List DecodedTrailer :=
  seen (feed K fragments ⟨d, []⟩)

/-- Behind chunks that fit stands a line of exactly the length allowed for a header. -/
def LongHeader (K : Crates) (mode : AwsChunkedMode) (limits : ChunkedLimits)
    (input : Bytes) : Prop :=
  ∃ chunks line rest, ChunksFit K mode limits 0 mode.previousSignature chunks ∧
    input = chunkWires chunks ++ (line ++ crlf ++ rest) ∧ ¬ crlf <:+: line ∧
    line.length = limits.maxChunkHeaderBytes

section Cuts

variable {K : Crates} {mode : AwsChunkedMode} {limits : ChunkedLimits} {s t : Decoding}
  {stream f : Bytes}

theorem push_eq (bytes : Bytes) (hphase : s.phase ≠ .done) :
    push K bytes s = decodeLoop K (s.extend bytes) := by
  simp only [push, run_bind, run_get, run_ite, hphase, if_false, run_modify]

theorem push_done {bytes : Bytes} (hphase : s.phase = .done) :
    push K bytes s
      = (if bytes = [] then .ok .done else .error (.error .inputAfterEnd), s) := by
  simp only [push, run_bind, run_get, run_ite, hphase, if_true, List.isEmpty_iff, run_pure,
    run_fail]
  split <;> rfl

theorem finish_done (hphase : s.phase = .done) : finish s = (.ok ⟨⟩, s) := by
  simp only [finish, run_bind, run_get, hphase, run_pure]

theorem Follows.finish (h : Follows f s t) : seen (finish t) = seen (finish s) := by
  obtain ⟨houtput, htrailers⟩ := h.alike
  simp only [Protocol.finish, run_bind, run_get, h.fields.1]
  cases s.phase <;> simp [seen, run_pure, run_fail, houtput, htrailers]

theorem follows_extend (hbounded : s.offset ≤ s.input.length) (b f : Bytes) :
    Follows f (s.extend b) (s.extend (b ++ f)) := by
  obtain ⟨havailable, _⟩ := extend_available s b hbounded
  obtain ⟨havailable', _⟩ := extend_available s (b ++ f) hbounded
  constructor
  · obtain ⟨input, offset, heq⟩ := extend_eq s b
    obtain ⟨input', offset', heq'⟩ := extend_eq s (b ++ f)
    rw [heq, heq']
    rfl
  · rw [havailable, havailable', List.append_assoc]

theorem longHeader_of_cuts {chunks : List WireChunk}
    (h : Standing K mode limits stream chunks s) (hcut : CutsLongHeader f s) :
    LongHeader K mode limits (stream ++ f) := by
  obtain ⟨hphase, _, _, hposition⟩ := hcut
  have hstream : stream = chunkWires chunks ++ s.available := by
    have hremains := h.remains
    rwa [hphase] at hremains
  rw [h.same_limits] at hposition
  obtain ⟨hsplit, hle⟩ := crlfPosition_eq hposition
  refine ⟨chunks, (s.available ++ f).take limits.maxChunkHeaderBytes,
    (s.available ++ f).drop (limits.maxChunkHeaderBytes + 2), h.fits, ?_,
    crlf_not_infix_take hposition, ?_⟩
  · rw [← hsplit, hstream, List.append_assoc]
  · rw [List.length_take]
    omega

theorem seen_follows (h : Follows [] s t) (hphase : s.phase ≠ .done) :
    seen ((decodeLoop K >>= fun _ => finish) t) = seen ((decodeLoop K >>= fun _ => finish) s) := by
  have hcut : ∀ u, True → ¬ CutsLongHeader [] u := by
    rintro u _ ⟨_, hnone, _, hsome⟩
    rw [List.append_nil, hnone] at hsome
    cases hsome
  have hecho := echo_loop (K := K) (fun _ _ _ _ => trivial) hcut h hphase trivial
  rw [run_bind, run_bind]
  rcases hloop : decodeLoop K s with ⟨e | (_ | _), s'⟩
  · rw [hloop] at hecho
    obtain ⟨t', hanswer, houtput, htrailers⟩ := hecho
    rw [hanswer]
    simp only [seen, houtput, htrailers]
  · rw [hloop] at hecho
    obtain ⟨_, t', hfollows, _, hanswer⟩ := hecho
    rw [hanswer rfl]
    exact hfollows.finish
  · rw [hloop] at hecho
    obtain ⟨hdone, _, t', ⟨houtput, htrailers⟩, hdone', hanswer⟩ := hecho
    rw [if_pos rfl] at hanswer
    rw [hanswer]
    simp only [finish_done hdone, finish_done hdone', seen, houtput, htrailers]

theorem feed_cons (b : Bytes) (bs : List Bytes) (s : Decoding) :
    feed K (b :: bs) s = (push K b >>= fun _ => feed K bs) s := rfl

/-- **One cut.**  A fragment and what follows it can be pushed together. -/
theorem feed_cut {b : Bytes} {bs : List Bytes} {status : DecodeStatus}
    (h : DecodePoint K mode limits stream s (some (.ok status)))
    (hlong : ¬ LongHeader K mode limits (stream ++ b ++ f))
    (hrest : ∀ s' status', DecodePoint K mode limits (stream ++ b) s' (some (.ok status')) →
      seen (feed K bs s') = seen (feed K [f] s')) :
    seen (feed K (b :: bs) s) = seen (feed K [b ++ f] s) := by
  obtain ⟨_, chunks, hstanding⟩ := h.stands
  by_cases hphase : s.phase = .done
  · by_cases hb : b = []
    · have hpush : push K b s = (.ok .done, s) := by rw [push_done hphase, if_pos hb]
      rw [feed_cons, run_bind, hpush, hb, List.nil_append]
      exact hrest s .done (h.push_returns hpush)
    · have hne : b ++ f ≠ [] := fun hnil => hb (List.append_eq_nil_iff.mp hnil).1
      rw [feed_cons, feed_cons, run_bind, run_bind, push_done hphase, push_done hphase, if_neg hb,
        if_neg hne]
  · have hI : ∀ u u', DecodePoint K mode limits (stream ++ b) u none →
        decodeRound K u = (.ok none, u') → DecodePoint K mode limits (stream ++ b) u' none :=
      fun u u' hu hround => hu.round hround
    have hcut : ∀ u, DecodePoint K mode limits (stream ++ b) u none → ¬ CutsLongHeader f u := by
      intro u hu hcut
      obtain ⟨chunks, hu⟩ := hu.stands
      exact hlong (longHeader_of_cuts hu hcut)
    have hnotdone : (s.extend b).phase ≠ .done := by
      obtain ⟨input, offset, heq⟩ := extend_eq s b
      rw [heq]
      exact hphase
    have hecho := echo_loop (K := K) hI hcut (follows_extend hstanding.bounded b f) hnotdone
      (h.push b hphase)
    have hpush : push K b s = decodeLoop K (s.extend b) := push_eq b hphase
    rw [feed_cons, feed_cons, run_bind, run_bind, push_eq (b ++ f) hphase]
    rcases hloop : decodeLoop K (s.extend b) with ⟨e | (_ | _), s'⟩
    · rw [hloop] at hecho hpush
      obtain ⟨t', hanswer, houtput, htrailers⟩ := hecho
      rw [hpush, hanswer]
      simp only [seen, houtput, htrailers]
    · rw [hloop] at hecho hpush
      obtain ⟨hphase', t', hfollows, hanswer, _⟩ := hecho
      have hpoint := h.push_returns hpush
      obtain ⟨_, chunks', hstanding'⟩ := hpoint.stands
      -- the second run stands where the first one stands with the rest pushed behind
      have hsame : Follows [] (s'.extend f) t' := by
        obtain ⟨havailable, _⟩ := extend_available s' f hstanding'.bounded
        obtain ⟨input, offset, heq⟩ := extend_eq s' f
        refine ⟨?_, by rw [havailable, hfollows.available, List.append_nil]⟩
        rw [heq, hfollows.located]
        rfl
      have hnotdone' : (s'.extend f).phase ≠ .done := by
        rw [← hsame.fields.1, hfollows.fields.1]
        exact hphase'
      have hrun : feed K [f] s' = (decodeLoop K >>= fun _ => finish) (s'.extend f) := by
        rw [feed_cons, run_bind, push_eq f hphase', run_bind]
        rfl
      rw [hpush, hanswer]
      change seen (feed K bs s') = seen ((decodeLoop K >>= fun _ => finish) t')
      rw [hrest s' .needMore hpoint, hrun, seen_follows hsame hnotdone']
    · rw [hloop] at hecho hpush
      obtain ⟨hdone, _, t', ⟨houtput, htrailers⟩, hdone', hanswer⟩ := hecho
      rw [hpush, hanswer]
      change seen (feed K bs s') = _
      rw [hrest s' .done (h.push_returns hpush), feed_cons, run_bind, push_done hdone]
      by_cases hf : f = []
      · simp only [hf, if_true]
        change seen (finish s') = seen (finish t')
        rw [finish_done hdone, finish_done hdone']
        simp only [seen, houtput, htrailers]
      · simp only [hf, if_false, seen, houtput, htrailers]

/-- **All cuts**, from any point of a run. -/
theorem feed_join {b : Bytes} {bs : List Bytes} {status : DecodeStatus}
    (h : DecodePoint K mode limits stream s (some (.ok status)))
    (hlong : ¬ LongHeader K mode limits (stream ++ (b ++ bs.flatten))) :
    seen (feed K (b :: bs) s) = seen (feed K [b ++ bs.flatten] s) := by
  induction bs generalizing b stream s status with
  | nil => rw [List.flatten_nil, List.append_nil]
  | cons b' bs ih =>
    rw [List.flatten_cons] at hlong ⊢
    rw [← List.append_assoc] at hlong
    exact feed_cut h hlong fun s' status' hpoint => ih hpoint hlong

/-- Without a long header the fragments make no difference. -/
theorem outcome_join {d : AwsChunkedDecoder} (hnew : AwsChunkedDecoder.new mode limits = .ok d)
    {fragments : List Bytes} (hlong : ¬ LongHeader K mode limits fragments.flatten) :
    outcome K d fragments = outcome K d [fragments.flatten] := by
  cases fragments with
  | nil =>
    obtain ⟨_, rfl⟩ := distinct_of_new hnew
    have hround : decodeRound K ((⟨.initial mode limits, []⟩ : Decoding).extend [])
        = (.ok (some .needMore), (⟨.initial mode limits, []⟩ : Decoding).extend []) := by
      rfl
    have hpush : push K [] ⟨.initial mode limits, []⟩
        = (.ok .needMore, (⟨.initial mode limits, []⟩ : Decoding).extend []) :=
      loop_return hround
    rw [List.flatten_nil, outcome, outcome, feed_cons, run_bind, hpush]
    rfl
  | cons b bs =>
    rw [List.flatten_cons] at hlong ⊢
    exact feed_join (.new hnew) hlong

end Cuts

/-! ## 5. A long header -/

/-- The computation never reports that a header is too long. -/
def Quiet {α : Type} (m : DecodeM α) : Prop := ∀ s, (m s).1 ≠ .error (.error .headerTooLarge)

section Quiet

variable {α β : Type} {K : Crates}

theorem Quiet.bind {m : DecodeM β} {k : β → DecodeM α} (hm : Quiet m) (hk : ∀ b, Quiet (k b)) :
    Quiet (m >>= k) := by
  intro s
  have hfirst := hm s
  rw [run_bind]
  rcases hrun : m s with ⟨e | b, s'⟩
  · rw [hrun] at hfirst
    simpa using hfirst
  · exact hk b s'

theorem Quiet.ite {c : Prop} [Decidable c] {m m' : DecodeM α} (hm : Quiet m) (hm' : Quiet m') :
    Quiet (if c then m else m') := by
  split
  · exact hm
  · exact hm'

theorem quiet_pure (a : α) : Quiet (pure a) := fun s => by simp [run_pure]

theorem quiet_get : Quiet get := fun s => by simp [run_get]

theorem quiet_modify (f : Decoding → Decoding) : Quiet (modify f) :=
  fun s => by simp [run_modify]

theorem quiet_panic : Quiet (throw .panic : DecodeM α) := fun s => by simp [run_throw]

theorem quiet_fail {e : ChunkedError} (h : e ≠ .headerTooLarge) : Quiet (fail e : DecodeM α) :=
  fun s => by simpa [run_fail] using h

theorem quiet_failIf {c : Prop} [Decidable c] {e : ChunkedError} (h : e ≠ .headerTooLarge)
    {k : Unit → DecodeM α} (hk : Quiet (k ⟨⟩)) : Quiet (if c then fail e >>= k else k ⟨⟩) :=
  .ite (fun s => by simpa [run_bind, run_fail] using h) hk

theorem quiet_orFail {r : Except ChunkedError α} (h : r ≠ .error .headerTooLarge) :
    Quiet (orFail r) := by
  intro s
  rw [run_orFail]
  cases r with
  | ok a => simp [Except.mapError]
  | error e => simpa [Except.mapError] using h

theorem quiet_chainSignature (data : Bytes) (signature : Option Digest32) :
    Quiet (chainSignature K data signature) := by
  cases signature with
  | none => exact quiet_pure _
  | some own =>
    refine .bind (.bind quiet_get fun s => ?_) fun _ => quiet_modify _
    cases s.mode with
    | unsignedTrailer declared => exact quiet_fail (by decide)
    | signed context =>
      cases s.previousSignature with
      | none => exact quiet_panic
      | some previous => exact .ite (quiet_pure _) (quiet_fail (by decide))

theorem quiet_releaseChunk : Quiet (releaseChunk K) := by
  refine .bind quiet_get fun s => ?_
  cases s.current with
  | none => exact quiet_panic
  | some current =>
    refine .bind (quiet_modify _) fun _ => .bind (quiet_chainSignature _ _) fun _ =>
      .bind (.bind quiet_get fun s => ?_) fun _ => .bind (quiet_modify _) fun _ => quiet_pure _
    refine quiet_failIf (by decide) (.bind (quiet_modify _) fun _ => ?_)
    exact quiet_failIf (by decide) (quiet_modify _)

theorem parseExtensions_error (fields : List Bytes) (signature : Option Digest32) :
    parseExtensions fields signature ≠ .error .headerTooLarge := by
  induction fields generalizing signature with
  | nil => simp [parseExtensions]
  | cons extension fields ih =>
    rw [parseExtensions]
    repeat' split
    all_goals first | exact ih _ | simp

theorem parseChunkHeader_error (line : Bytes) : parseChunkHeader line ≠ .error .headerTooLarge := by
  unfold parseChunkHeader
  split
  · simp
  · split
    · simp
    · split
      · simp
      · rename_i fields _ _ _ _ _
        have hfields := parseExtensions_error fields none
        cases hparsed : parseExtensions fields none with
        | ok signature => simp [Except.map]
        | error e =>
          rw [hparsed] at hfields
          simpa [Except.map] using hfields

theorem quiet_headerLine (line : Bytes) : Quiet (headerLine K line) := by
  refine .bind quiet_get fun s => .bind (quiet_orFail (parseChunkHeader_error line)) fun header => ?_
  refine quiet_failIf (by decide) (quiet_failIf (by decide) (.bind (quiet_orFail ?_) fun _ => ?_))
  · rcases s.mode with context | declared <;> rcases header.2 with _ | own <;>
      simp [signatureExpected]
  · apply Quiet.ite
    · exact .bind (quiet_chainSignature _ _) fun _ => .bind (quiet_modify _) fun _ => quiet_pure _
    · exact .bind (quiet_modify _) fun _ => quiet_pure _

theorem parseTrailer_error (line : Bytes) : parseTrailer line ≠ .error .headerTooLarge := by
  rw [parseTrailer_eq]
  repeat' split
  all_goals simp

theorem quiet_acceptTrailer (line : Bytes) : Quiet (acceptTrailer line) := by
  refine .bind quiet_get fun s => ?_
  cases s.mode with
  | signed context => exact quiet_fail (by decide)
  | unsignedTrailer declared =>
    refine quiet_failIf (by decide) (.bind (quiet_orFail (parseTrailer_error line)) fun field => ?_)
    exact quiet_failIf (by simp) (quiet_failIf (by simp) (quiet_modify _))

theorem forM_error {xs : List α} {check : α → Except ChunkedError Unit}
    (h : ∀ x, check x ≠ .error .headerTooLarge) : xs.forM check ≠ .error .headerTooLarge := by
  induction xs with
  | nil =>
    intro h
    cases h
  | cons x xs ih =>
    change (check x >>= fun _ => xs.forM check) ≠ _
    have hx := h x
    cases hcheck : check x with
    | ok u => exact ih
    | error e =>
      rw [hcheck] at hx
      exact hx

theorem finishTrailers_error (d : AwsChunkedDecoder) :
    finishTrailers K d ≠ .error .headerTooLarge := by
  have hcheck : ∀ declared, checkTrailer K d.hashed d.trailers declared
      ≠ .error .headerTooLarge := by
    intro declared
    unfold checkTrailer
    repeat' split
    all_goals simp
  unfold finishTrailers
  repeat' split
  all_goals first | exact forM_error hcheck | simp

theorem quiet_trailers (line : Bytes) : Quiet (trailerLine K line >>= endOfBody) := by
  apply Quiet.bind
  · refine .bind quiet_get fun s => quiet_failIf (by decide) (.bind (quiet_modify _) fun _ => ?_)
    refine quiet_failIf (by decide) (.ite ?_ ?_)
    · exact .bind quiet_get fun s => .bind (quiet_orFail (finishTrailers_error _)) fun _ =>
        .bind (quiet_modify _) fun _ => quiet_pure _
    · exact .bind (quiet_acceptTrailer line) fun _ => quiet_pure _
  · intro last
    apply Quiet.ite
    · exact .bind quiet_get fun s => quiet_failIf (by decide) (quiet_pure _)
    · exact quiet_pure _

end Quiet

section LongHeader

variable {K : Crates} {mode : AwsChunkedMode} {limits : ChunkedLimits} {s s' : Decoding} {n : Nat}

/-- The next header is not reached before more than `n` bytes are released. -/
def Later (n : Nat) (s : Decoding) : Prop :=
  match s.phase with
  | .header => n < s.output.length
  | .data => n ≤ s.output.length ∧ ∀ c, s.current = some c → 0 < c.size
  | .dataCrlf => n ≤ s.output.length ∧ ∀ c, s.current = some c → c.data ≠ []
  | .trailers => True
  | .done => True

/-- A header that is too long is reported behind more than `n` bytes. -/
def TooLateFor (n : Nat) (e : Fault) (s' : Decoding) : Prop :=
  e = .error .headerTooLarge → n < s'.output.length

theorem Quiet.wp {m : DecodeM (Option DecodeStatus)} {Q : Option DecodeStatus → Decoding → Prop}
    (hm : Quiet m) (h : Stateful.wp m Q (fun _ _ => True) s) :
    Stateful.wp m Q (TooLateFor n) s := by
  have herror := hm s
  simp only [Stateful.wp] at h ⊢
  rcases hrun : m s with ⟨e | o, s'⟩
  · rw [hrun] at herror
    intro he
    exact absurd (congrArg _ he) herror
  · rw [hrun] at h
    exact h

theorem quiet_linePhase {limit : Nat} {tooLarge : ChunkedError}
    {handle : Bytes → DecodeM (Option DecodeStatus)} (hlarge : tooLarge ≠ .headerTooLarge)
    (hhandle : ∀ line, Quiet (handle line)) : Quiet (linePhase limit tooLarge handle) := by
  intro s
  unfold linePhase
  split
  · split
    · simpa using hlarge
    · simp
  · split
    · simpa using hlarge
    · exact hhandle _ _

theorem quiet_trailersPhase : Quiet (trailersPhase K) := by
  intro s
  rw [trailersPhase_eq]
  exact quiet_linePhase (by decide) quiet_trailers s

theorem quiet_dataCrlfPhase : Quiet (dataCrlfPhase K) := by
  intro s
  rw [dataCrlfPhase_eq]
  split
  · simp
  · split
    · simp
    · exact quiet_releaseChunk _

/-- **One round** comes closer to the next header only by releasing data. -/
theorem later_round (h : Later n s) :
    wp (decodeRound K) (fun o s' => o = none → Later n s') (TooLateFor n) s := by
  simp only [decodeRound, wp_bind, wp_get]
  split
  · rename_i hphase
    have hlonger : n < s.output.length := by rwa [Later, hphase] at h
    apply wp_headerPhase
    · intro hnone
      cases hnone
    · intro e s' houtput _
      rwa [houtput]
    · intro line rest size signature _ _ _ hsize _ _
      refine ⟨hlonger.le, ?_⟩
      intro c hc
      cases hc
      exact hsize
    · exact fun _ _ _ _ _ _ _ _ _ _ => trivial
  · rename_i hphase
    have hdata : n ≤ s.output.length ∧ ∀ c, s.current = some c → 0 < c.size := by
      rwa [Later, hphase] at h
    apply wp_dataPhase
    · intro hnone
      cases hnone
    · intro _ he
      cases he
    · intro current hcurrent _ _
      have hsize := hdata.2 current hcurrent
      by_cases hfull : (current.receive s.available).data.length
          = (current.receive s.available).size
      · simp only [Later, hfull, if_true]
        refine ⟨hdata.1, ?_⟩
        intro c hc
        cases hc
        exact List.ne_nil_of_length_pos (hfull ▸ hsize)
      · simp only [Later, hfull, if_false, hphase]
        refine ⟨hdata.1, ?_⟩
        intro c hc
        cases hc
        exact hsize
  · rename_i hphase
    have hdata : n ≤ s.output.length ∧ ∀ c, s.current = some c → c.data ≠ [] := by
      rwa [Later, hphase] at h
    apply quiet_dataCrlfPhase.wp
    apply wp_dataCrlfPhase
    · intro hnone
      cases hnone
    · exact fun _ _ _ => trivial
    · intro current _ _ hcurrent _ _ _
      have hpos := List.length_pos_of_ne_nil (hdata.2 current hcurrent)
      change n < (s.output ++ current.data).length
      rw [List.length_append]
      omega
  · rename_i hphase
    apply quiet_trailersPhase.wp
    apply wp_trailersPhase
    · intro hnone
      cases hnone
    · exact fun _ _ _ => trivial
    · intro line rest trailers trailerBytes declared _ _ _
      simp only [Later, hphase]
    · intro _ _ hnone
      cases hnone
  · intro hnone
    cases hnone

/-- **To the end of the loop.** -/
theorem later_loop (h : Later n s) : wp (decodeLoop K) (fun _ _ => True) (TooLateFor n) s := by
  apply wp_loop (Later n)
  · intro s₁ h₁
    refine wp_mono (later_round h₁) ?_ fun _ _ he => he
    intro o s₂ h₂
    cases o with
    | none => exact h₂ rfl
    | some a => trivial
  · exact h

theorem crlfPosition_cut {line : Bytes} (h : ¬ crlf <:+: line) :
    crlfPosition (line ++ [13]) = none := by
  cases hposition : crlfPosition (line ++ [13]) with
  | none => rfl
  | some position =>
    obtain ⟨hsplit, _⟩ := crlfPosition_eq hposition
    generalize (line ++ [13]).take position = before at hsplit
    generalize (line ++ [13]).drop (position + 2) = behind at hsplit
    rcases List.eq_nil_or_concat behind with rfl | ⟨behind, last, rfl⟩
    · have hlast := congrArg List.getLast? hsplit
      rw [List.append_nil, List.getLast?_concat, List.getLast?_append] at hlast
      exact absurd hlast (by simp [crlf])
    · rw [List.concat_eq_append, ← List.append_assoc] at hsplit
      have hline := (List.append_inj' hsplit rfl).1
      exact absurd ⟨before, behind, hline.symm⟩ h

theorem initial_phase (mode : AwsChunkedMode) (limits : ChunkedLimits) :
    (⟨.initial mode limits, []⟩ : Decoding).phase ≠ .done := by
  change DecodePhase.header ≠ .done
  decide

section Cut

variable {chunks : List WireChunk} {line : Bytes}

/-- The chunks of a body are passed over, and what is left is read as a header. -/
theorem push_chunks (hfits : ChunksFit K mode limits 0 mode.previousSignature chunks)
    (rest : Bytes) : ∃ s, push K (chunkWires chunks ++ rest) ⟨.initial mode limits, []⟩
        = decodeLoop K s ∧ s.available = rest ∧ s.output = chunkData chunks ∧ s.trailers = [] ∧
      decodeRound K s = linePhase limits.maxChunkHeaderBytes .headerTooLarge (headerLine K) s := by
  obtain ⟨s, hloop, hrest, hbehind⟩ := pass_chunks (K := K)
    (s := (⟨.initial mode limits, []⟩ : Decoding).extend (chunkWires chunks ++ rest)) rfl
    (show _ = chunkWires chunks ++ rest from rfl) hfits
  have hlimits : s.limits = limits := hbehind.limits
  refine ⟨s, (push_eq _ (initial_phase mode limits)).trans hloop, hrest, hbehind.output,
    hbehind.trailers, ?_⟩
  rw [decodeRound_eq, hbehind.phase, ← hlimits]
  exact headerPhase_eq ..

theorem cut_run (hfits : ChunksFit K mode limits 0 mode.previousSignature chunks)
    (hline : ¬ crlf <:+: line) (hlength : line.length = limits.maxChunkHeaderBytes) (f : Bytes) :
    outcome K (.initial mode limits) [chunkWires chunks ++ (line ++ [13]), f]
      = (.error (.error .headerTooLarge), chunkData chunks, []) := by
  obtain ⟨s, hpush, hrest, houtput, htrailers, hheader⟩ := push_chunks (K := K) hfits (line ++ [13])
  have hround : decodeRound K s = (.error (.error .headerTooLarge), s) := by
    have hlong : limits.maxChunkHeaderBytes < (line ++ [13]).length := by
      rw [List.length_append, hlength]
      exact Nat.lt_succ_self _
    rw [hheader]
    simp only [linePhase, hrest, crlfPosition_cut hline, hlong, if_true]
  have hpush := hpush.trans (loop_fail hround)
  rw [outcome, feed_cons, run_bind, hpush]
  simp only [seen, houtput, htrailers]

theorem whole_run (hfits : ChunksFit K mode limits 0 mode.previousSignature chunks)
    (hline : ¬ crlf <:+: line) (hlength : line.length = limits.maxChunkHeaderBytes) (rest : Bytes) :
    outcome K (.initial mode limits) [chunkWires chunks ++ (line ++ crlf ++ rest)]
      ≠ (.error (.error .headerTooLarge), chunkData chunks, []) := by
  obtain ⟨s, hpush, hrest, houtput, _, hheader⟩ :=
    push_chunks (K := K) hfits (line ++ crlf ++ rest)
  have hround : decodeRound K s = headerLine K line (s.advance (line.length + 2)) :=
    hheader.trans (linePhase_line hrest hline hlength.le)
  have hlate : wp (decodeLoop K) (fun _ _ => True) (TooLateFor (chunkData chunks).length) s := by
    rcases hfirst : headerLine K line (s.advance (line.length + 2)) with ⟨e | o, s₁⟩
    · have hquiet := quiet_headerLine (K := K) line (s.advance (line.length + 2))
      rw [hfirst] at hround hquiet
      simp only [wp, decodeLoop, loop_fail hround]
      intro he
      exact absurd (congrArg _ he) hquiet
    · obtain ⟨rfl, size, signature, _, hcases⟩ := headerLine_ok.mp hfirst
      rw [hfirst] at hround
      have hlater : Later (chunkData chunks).length s₁ := by
        rcases hcases with ⟨hpos, rfl⟩ | ⟨_, _, rfl⟩
        · refine ⟨(congrArg List.length houtput).ge, ?_⟩
          intro c hc
          cases hc
          exact hpos
        · trivial
      have hend := later_loop (K := K) hlater
      simp only [wp, decodeLoop, loop_next hround] at hend ⊢
      exact hend
  intro hsame
  rw [outcome, feed_cons, run_bind, hpush] at hsame
  rcases hend : decodeLoop K s with ⟨e | status, s'⟩
  · rw [hend] at hsame
    have hlonger := wp_run hlate hend
    simp only [seen, Prod.mk.injEq, Except.error.injEq] at hsame
    have hlt := hlonger hsame.1
    rw [hsame.2.1] at hlt
    exact lt_irrefl _ hlt
  · rw [hend] at hsame
    have hresult : (finish s').1 = .error (.error .headerTooLarge) := congrArg Prod.fst hsame
    simp only [finish, run_bind, run_get] at hresult
    cases hphase : s'.phase <;> rw [hphase] at hresult <;> cases hresult

end Cut

/-- **Fragments make no difference**, exactly for the bodies without a long header: a line of
    the full length allowed for a chunk header, where a chunk header is due. -/
theorem outcome_fragments_iff {d : AwsChunkedDecoder}
    (hnew : AwsChunkedDecoder.new mode limits = .ok d) (input : Bytes) :
    (∀ fragments fragments' : List Bytes, fragments.flatten = input →
      fragments'.flatten = input → outcome K d fragments = outcome K d fragments') ↔
    ¬ LongHeader K mode limits input := by
  constructor
  · rintro hsame ⟨chunks, line, rest, hfits, rfl, hline, hlength⟩
    obtain ⟨_, rfl⟩ := distinct_of_new hnew
    apply whole_run (K := K) hfits hline hlength rest
    rw [← cut_run hfits hline hlength (10 :: rest)]
    apply hsame
    · simp
    · simp [crlf]
  · rintro hlong fragments fragments' rfl hflatten
    rw [outcome_join hnew hlong, ← hflatten]
    rw [← hflatten] at hlong
    exact (outcome_join hnew hlong).symm

end LongHeader

theorem not_longHeader {K : Crates} {mode : AwsChunkedMode} {limits : ChunkedLimits}
    {input : Bytes} (h : input.length < limits.maxChunkHeaderBytes) :
    ¬ LongHeader K mode limits input := by
  rintro ⟨chunks, line, rest, _, rfl, _, hlength⟩
  simp only [List.length_append] at h
  omega

def oneByteMode : AwsChunkedMode := .unsignedTrailer [ascii "x-amz-checksum-crc32"]

/-- The body `a` in one chunk, with a checksum behind it. -/
def oneByteEncoding : ChunkedEncoding where
  chunks := [⟨ascii "01", none, ascii "a"⟩]
  final := ⟨ascii "0", none, []⟩
  trailers := [⟨ascii "x-amz-checksum-crc32", ascii " ", ascii "6Le+Qw==", [10], []⟩]

theorem outcome_fragments_iff_one_byte :
    ¬ LongHeader crcCrates oneByteMode {} oneByteEncoding.wire ∧
    [ascii "01\r", ascii "\na\r\n0\r\nx-amz-checksum-crc32: 6Le+Qw==\n\r\n\r\n"].flatten
      = oneByteEncoding.wire ∧ outcome crcCrates (.initial oneByteMode {})
        [ascii "01\r", ascii "\na\r\n0\r\nx-amz-checksum-crc32: 6Le+Qw==\n\r\n\r\n"]
      = outcome crcCrates (.initial oneByteMode {}) [oneByteEncoding.wire] := by
  have hnew : AwsChunkedDecoder.new oneByteMode {} = .ok (.initial oneByteMode {}) := rfl
  have hshort : ¬ LongHeader crcCrates oneByteMode {} oneByteEncoding.wire :=
    not_longHeader (by decide +kernel)
  have hflatten :
      [ascii "01\r", ascii "\na\r\n0\r\nx-amz-checksum-crc32: 6Le+Qw==\n\r\n\r\n"].flatten
        = oneByteEncoding.wire := by decide +kernel
  refine ⟨hshort, hflatten, ?_⟩
  apply (outcome_fragments_iff (K := crcCrates) hnew oneByteEncoding.wire).mpr hshort
  · exact hflatten
  · simp

/-- Limits that leave room for a single digit. -/
def tightLimits : ChunkedLimits := { maxChunkHeaderBytes := 1 }

def tightEncoding : ChunkedEncoding where
  chunks := [⟨ascii "1", none, ascii "a"⟩]
  final := ⟨ascii "0", none, []⟩
  trailers := [⟨ascii "x-amz-checksum-crc32", [], ascii "6Le+Qw==", [], []⟩]

theorem tightEncoding_valid : tightEncoding.Valid crcCrates oneByteMode tightLimits where
  chunks := by
    refine ⟨by decide, ⟨⟨by decide, by decide, by decide, by decide⟩, ?_, by decide, by decide,
      ⟨by decide, by decide⟩, trivial⟩, trivial⟩
    intro t ht
    cases ht
  final_empty := rfl
  final := by
    refine ⟨⟨by decide, by decide, by decide, by decide⟩, ?_, by decide, by decide,
      ⟨by decide, by decide⟩, trivial⟩
    intro t ht
    cases ht
  length := by
    intro n hn
    cases hn
  wellFormed := by
    intro t ht
    rw [List.mem_singleton.mp ht]
    exact ⟨by decide, by decide, by decide, by decide, by decide, by decide, Or.inl rfl⟩
  count_le := by decide
  bytes_lt := by decide
  bytes_le := by decide
  trailers := by
    refine ⟨.refl _, ?_⟩
    intro t ht
    rw [List.mem_singleton.mp ht]
    exact ⟨.crc32, rfl, by decide, by decide +kernel⟩

/-- A valid body is decoded when it is pushed whole, and rejected when the first call ends
    between the two bytes of its first line end. -/
theorem cut_line_end_rejected :
    AwsChunkedDecoder.new oneByteMode tightLimits = .ok (.initial oneByteMode tightLimits) ∧
    [ascii "1\r", ascii "\na\r\n0\r\nx-amz-checksum-crc32:6Le+Qw==\r\n\r\n"].flatten
      = tightEncoding.wire ∧ outcome crcCrates (.initial oneByteMode tightLimits)
      [ascii "1\r", ascii "\na\r\n0\r\nx-amz-checksum-crc32:6Le+Qw==\r\n\r\n"]
      = (.error (.error .headerTooLarge), [], []) ∧
    (outcome crcCrates (.initial oneByteMode tightLimits) [tightEncoding.wire]).1 = .ok ⟨⟩ ∧
    (outcome crcCrates (.initial oneByteMode tightLimits) [tightEncoding.wire]).2.1
      = ascii "a" := by
  have hnew : AwsChunkedDecoder.new oneByteMode tightLimits
      = .ok (.initial oneByteMode tightLimits) := rfl
  have hfits : ChunksFit crcCrates oneByteMode tightLimits 0 oneByteMode.previousSignature [] :=
    trivial
  have hline : ¬ crlf <:+: ascii "1" := by decide
  have hcut := cut_run hfits hline rfl
    (ascii "\na\r\n0\r\nx-amz-checksum-crc32:6Le+Qw==\r\n\r\n")
  obtain ⟨s, hpush, houtput⟩ := push_encoding tightEncoding_valid (distinct_of_new hnew).1
  have hdone := ((DecodePoint.new hnew).push_returns hpush).stands.1 rfl
  have hwhole : outcome crcCrates (.initial oneByteMode tightLimits) [tightEncoding.wire]
      = (.ok ⟨⟩, s.output, s.trailers) := by
    rw [outcome, feed_cons, run_bind, hpush]
    change seen (finish s) = _
    rw [finish_done hdone]
    rfl
  refine ⟨hnew, by decide +kernel, hcut, ?_, ?_⟩
  · rw [hwhole]
  · rw [hwhole]
    exact houtput

end Pgs3.Protocol
