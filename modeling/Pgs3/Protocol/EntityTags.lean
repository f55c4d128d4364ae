import Pgs3.Protocol.Ascii

/-!
# Lists of entity tags

Translation of `EntityTag::parse` and `TagCondition::parse` of `protocol/headers.rs`, for the
values of `If-Match` and `If-None-Match`.  A quoted tag ends at the next quote, so commas inside
quotes do not separate, and what the loop accepts are the written lists and nothing else.
-/

namespace Pgs3.Protocol

open Pgs3 Foundation

/-! ## 1. Definitions -/

/-- The field `opaque` has another name here. -/
structure EntityTag where
  weak : Bool
  opaqueTag : Bytes
deriving DecidableEq

inductive TagCondition where
  | any
  | tags (tags : List EntityTag)
deriving DecidableEq

inductive ConditionalError where
  | duplicateHeader (name : String)
  | invalidEntityTag
  | invalidHttpDate
deriving DecidableEq

def isAsciiWhitespace (b : UInt8) : Bool := b = 9 || b = 10 || b = 12 || b = 13 || b = 32

def trimAsciiStart (value : Bytes) : Bytes := value.dropWhile isAsciiWhitespace

def trimAscii (value : Bytes) : Bytes := (trimAsciiStart value).rdropWhile isAsciiWhitespace

def isOpaqueByte (b : UInt8) : Bool := b = 0x21 || (0x23 ≤ b && b ≠ 0x7f)

def EntityTag.parse (value : Bytes) : Except ConditionalError EntityTag := do
  let value := trimAscii value
  let weak := (ascii "W/").isPrefixOf value
  let quoted := if weak then value.drop 2 else value
  ensure (2 ≤ quoted.length ∧ quoted.head? = some 34 ∧ quoted.getLast? = some 34)
    .invalidEntityTag
  let opaqueTag := quoted.tail.dropLast
  ensure (opaqueTag.all isOpaqueByte) .invalidEntityTag
  return ⟨weak, opaqueTag⟩

/-- Where the first quote of a remainder stands. -/
def openingQuote (remainder : Bytes) : Option Nat :=
  if (ascii "W/\"").isPrefixOf remainder then some 2
  else if (ascii "\"").isPrefixOf remainder then some 0
  else none

/-- The tag at the start of a remainder, and what stands behind it. -/
def nextTag (remainder : Bytes) : Except ConditionalError (EntityTag × Bytes) := do
  let quote ← okOr .invalidEntityTag (openingQuote remainder)
  let position ← okOr .invalidEntityTag ((remainder.drop (quote + 1)).findIdx? (· = 34))
  let close := quote + 1 + position
  let tag ← EntityTag.parse (remainder.take (close + 1))
  return (tag, remainder.drop (close + 1))

/-- The loop of `TagCondition::parse`.  Every turn takes bytes from the remainder. -/
def tagLoop : Nat → Bytes → Except ConditionalError (List EntityTag)
  | 0, _ => return []
  | turns + 1, remainder => do
      if remainder = [] then return []
      let next ← nextTag (trimAsciiStart remainder)
      let remainder := trimAsciiStart next.2
      if remainder = [] then return [next.1]
      ensure (remainder.head? = some 44) .invalidEntityTag
      let remainder := remainder.tail
      ensure (trimAsciiStart remainder ≠ []) .invalidEntityTag
      return next.1 :: (← tagLoop turns remainder)

def TagCondition.parse (value : Bytes) : Except ConditionalError TagCondition := do
  let value := trimAscii value
  if value = ascii "*" then return .any
  -- one tag may come without its quotes
  if openingQuote value = none then
    ensure (value ≠ [] ∧ 44 ∉ value ∧ value.all fun b => 0x21 ≤ b && b ≠ 34 && b ≠ 0x7f)
      .invalidEntityTag
    return .tags [⟨false, value⟩]
  let tags ← tagLoop value.length value
  ensure (tags ≠ []) .invalidEntityTag
  return .tags tags

/-! ## 2. Written lists -/

def EntityTag.render (tag : EntityTag) : Bytes :=
  (if tag.weak then ascii "W/" else []) ++ 34 :: (tag.opaqueTag ++ [34])

def EntityTag.Legal (tag : EntityTag) : Prop := ∀ b ∈ tag.opaqueTag, isOpaqueByte b = true

def IsBlank (bytes : Bytes) : Prop := ∀ b ∈ bytes, isAsciiWhitespace b = true

/-- The value is a nonempty list of tags with commas between them and whitespace anywhere
    around them. -/
inductive Renders : Bytes → List EntityTag → Prop
  | last {lead trail : Bytes} {tag : EntityTag} (hlead : IsBlank lead) (htrail : IsBlank trail)
      (h : tag.Legal) : Renders (lead ++ (tag.render ++ trail)) [tag]
  | more {lead trail rest : Bytes} {tag : EntityTag} {tags : List EntityTag}
      (hlead : IsBlank lead) (htrail : IsBlank trail) (h : tag.Legal) (hrest : Renders rest tags) :
      Renders (lead ++ (tag.render ++ (trail ++ 44 :: rest))) (tag :: tags)

/-! ## 3. Whitespace -/

section Blank

variable {lead rest value : Bytes}

theorem isBlank_nil : IsBlank [] := fun _ hb => absurd hb List.not_mem_nil

theorem isBlank_append {lead trail : Bytes} (h : IsBlank lead) (h' : IsBlank trail) :
    IsBlank (lead ++ trail) :=
  fun b hb => (List.mem_append.mp hb).elim (h b) (h' b)

theorem trimAsciiStart_append (h : IsBlank lead) (rest : Bytes) :
    trimAsciiStart (lead ++ rest) = trimAsciiStart rest := by
  induction lead with
  | nil => rfl
  | cons b lead ih =>
    rw [List.cons_append, trimAsciiStart, List.dropWhile_cons_of_pos (h b List.mem_cons_self)]
    exact ih fun c hc => h c (List.mem_cons_of_mem _ hc)

theorem exists_trimAsciiStart (value : Bytes) :
    ∃ lead, IsBlank lead ∧ value = lead ++ trimAsciiStart value :=
  ⟨value.takeWhile isAsciiWhitespace, fun _ hb => List.mem_takeWhile_imp hb,
    (List.takeWhile_append_dropWhile).symm⟩

theorem head_render (tag : EntityTag) (rest : Bytes) :
    ∃ b more, tag.render ++ rest = b :: more ∧ isAsciiWhitespace b = false := by
  unfold EntityTag.render
  cases tag.weak with
  | true => exact ⟨87, _, rfl, by decide⟩
  | false => exact ⟨34, _, rfl, by decide⟩

theorem trimAsciiStart_render (tag : EntityTag) (rest : Bytes) :
    trimAsciiStart (tag.render ++ rest) = tag.render ++ rest := by
  rcases head_render tag rest with ⟨b, more, heq, hb⟩
  rw [heq, trimAsciiStart, List.dropWhile_cons_of_neg (by simp [hb])]

/-- Whitespace at the end of a value that ends in a tag. -/
theorem rdropWhile_render {lead trail : Bytes} (tag : EntityTag) (htrail : IsBlank trail) :
    (lead ++ (tag.render ++ trail)).rdropWhile isAsciiWhitespace = lead ++ tag.render := by
  have hquote : ∀ before : Bytes, (before ++ [34] ++ trail).rdropWhile isAsciiWhitespace
      = before ++ [34] := by
    intro before
    rw [List.rdropWhile, List.reverse_append, ← trimAsciiStart,
      trimAsciiStart_append (fun b hb => htrail b (List.mem_reverse.mp hb))]
    simp [trimAsciiStart, isAsciiWhitespace]
  have hrender : tag.render
      = (if tag.weak then ascii "W/" else []) ++ 34 :: tag.opaqueTag ++ [34] := by
    simp [EntityTag.render]
  rw [hrender, ← List.append_assoc, ← List.append_assoc, hquote, List.append_assoc]

theorem rdropWhile_append_of_ne_nil {before after : Bytes}
    (h : after.rdropWhile isAsciiWhitespace ≠ []) : (before ++ after).rdropWhile isAsciiWhitespace
      = before ++ after.rdropWhile isAsciiWhitespace := by
  have hne : (after.reverse.dropWhile isAsciiWhitespace).isEmpty = false := by
    simpa [List.rdropWhile] using h
  rw [List.rdropWhile, List.reverse_append, List.dropWhile_append, hne]
  simp [List.rdropWhile]

end Blank

namespace Renders

variable {value : Bytes} {tags : List EntityTag}

theorem trimStart (h : Renders value tags) : Renders (trimAsciiStart value) tags := by
  cases h with
  | last hlead htrail h =>
    rw [trimAsciiStart_append hlead, trimAsciiStart_render]
    exact .last isBlank_nil htrail h
  | more hlead htrail h hrest =>
    rw [trimAsciiStart_append hlead, trimAsciiStart_render]
    exact .more isBlank_nil htrail h hrest

theorem trimEnd (h : Renders value tags) : value.rdropWhile isAsciiWhitespace ≠ []
      ∧ Renders (value.rdropWhile isAsciiWhitespace) tags := by
  induction h with
  | @last lead trail tag hlead htrail h =>
    rw [rdropWhile_render tag htrail]
    have hrenders : Renders (lead ++ (tag.render ++ [])) [tag] := .last hlead isBlank_nil h
    rw [List.append_nil] at hrenders
    exact ⟨by simp [EntityTag.render], hrenders⟩
  | @more lead trail rest tag tags hlead htrail h _ ih =>
    have heq : lead ++ (tag.render ++ (trail ++ 44 :: rest))
        = lead ++ (tag.render ++ (trail ++ [44])) ++ rest := by simp
    rw [heq, rdropWhile_append_of_ne_nil ih.1]
    have hrenders := Renders.more hlead htrail h ih.2
    exact ⟨by simp, by simpa using hrenders⟩

theorem ne_nil (h : Renders value tags) : value ≠ [] := by
  rintro rfl
  exact h.trimEnd.1 rfl

theorem prepend {lead : Bytes} (hlead : IsBlank lead) (h : Renders value tags) :
    Renders (lead ++ value) tags := by
  cases h with
  | last hlead' htrail h =>
    rw [← List.append_assoc]
    exact .last (isBlank_append hlead hlead') htrail h
  | more hlead' htrail h hrest =>
    rw [← List.append_assoc]
    exact .more (isBlank_append hlead hlead') htrail h hrest

theorem extend {trail : Bytes} (htrail : IsBlank trail) (h : Renders value tags) :
    Renders (value ++ trail) tags := by
  induction h with
  | last hlead htrail' h =>
    rw [List.append_assoc, List.append_assoc]
    exact .last hlead (isBlank_append htrail' htrail) h
  | more hlead htrail' h _ ih =>
    rw [List.append_assoc, List.append_assoc, List.append_assoc, List.cons_append]
    exact .more hlead htrail' h ih

end Renders

theorem renders_trimAscii {value : Bytes} {tags : List EntityTag} :
    Renders (trimAscii value) tags ↔ Renders value tags := by
  constructor
  · intro h
    rcases exists_trimAsciiStart value with ⟨lead, hlead, hvalue⟩
    have htail : ∃ trail, IsBlank trail ∧ trimAsciiStart value = trimAscii value ++ trail :=
      ⟨_, fun b hb => List.mem_rtakeWhile_imp hb, (List.rdropWhile_append_rtakeWhile).symm⟩
    rcases htail with ⟨trail, htrail, hstart⟩
    rw [hvalue, hstart]
    exact (h.extend htrail).prepend hlead
  · exact fun h => h.trimStart.trimEnd.2

/-! ## 4. One tag -/

theorem parse_render {tag tag' : EntityTag} :
    EntityTag.parse tag.render = .ok tag' ↔ tag.Legal ∧ tag' = tag := by
  have htrim : trimAscii tag.render = tag.render := by
    have hstart := trimAsciiStart_render tag []
    have hend := @rdropWhile_render [] [] tag isBlank_nil
    rw [List.append_nil] at hstart
    rw [List.append_nil, List.nil_append] at hend
    rw [trimAscii, hstart, hend]
  have hweak : (ascii "W/").isPrefixOf tag.render = tag.weak := by
    unfold EntityTag.render
    cases tag.weak <;> rfl
  have hquoted : (if tag.weak then tag.render.drop 2 else tag.render)
      = 34 :: tag.opaqueTag ++ [34] := by
    unfold EntityTag.render
    cases tag.weak <;> rfl
  simp only [EntityTag.parse, htrim, hweak, hquoted, bind_eq_ok, ensure_eq_ok, pure_eq_ok,
    List.cons_append, List.tail_cons, List.dropLast_concat,
    List.head?_cons, List.all_eq_true]
  constructor
  · rintro ⟨_, _, _, hlegal, rfl⟩
    exact ⟨hlegal, rfl⟩
  · rintro ⟨hlegal, rfl⟩
    have hlast := @List.getLast?_concat _ (34 :: tag'.opaqueTag) 34
    exact ⟨(), ⟨by simp, trivial, hlast⟩, (), hlegal, rfl⟩

theorem openingQuote_eq_some {remainder : Bytes} {quote : Nat} :
    openingQuote remainder = some quote ↔ ∃ weak : Bool, ∃ rest, quote = (if weak then 2 else 0)
      ∧ remainder = (if weak then ascii "W/" else []) ++ 34 :: rest := by
  have hweak : (ascii "W/\"").isPrefixOf remainder = true ↔
      ∃ rest, remainder = ascii "W/" ++ 34 :: rest := by
    rw [List.isPrefixOf_iff_prefix]
    exact ⟨fun ⟨rest, h⟩ => ⟨rest, h.symm⟩, fun ⟨rest, h⟩ => ⟨rest, h.symm⟩⟩
  have hstrong : (ascii "\"").isPrefixOf remainder = true ↔ ∃ rest, remainder = 34 :: rest := by
    rw [List.isPrefixOf_iff_prefix]
    exact ⟨fun ⟨rest, h⟩ => ⟨rest, h.symm⟩, fun ⟨rest, h⟩ => ⟨rest, h.symm⟩⟩
  unfold openingQuote
  constructor
  · intro h
    split_ifs at h with h₂ h₀
    · rcases hweak.mp h₂ with ⟨rest, hrest⟩
      exact ⟨true, rest, (Option.some.inj h).symm, hrest⟩
    · rcases hstrong.mp h₀ with ⟨rest, hrest⟩
      exact ⟨false, rest, (Option.some.inj h).symm, hrest⟩
  · rintro ⟨weak, rest, rfl, rfl⟩
    cases weak <;> rfl

theorem findIdx_quote {rest : Bytes} {position : Nat} : rest.findIdx? (· = 34) = some position ↔
      ∃ inner behind, rest = inner ++ 34 :: behind ∧ 34 ∉ inner ∧ inner.length = position := by
  constructor
  · intro h
    rw [List.findIdx?_eq_some_iff_getElem] at h
    rcases h with ⟨hlt, hquote, hbefore⟩
    have hquote : rest[position] = 34 := of_decide_eq_true hquote
    refine ⟨rest.take position, rest.drop (position + 1), ?_, ?_, ?_⟩
    · rw [← hquote, List.cons_getElem_drop_succ, List.take_append_drop]
    · intro hmem
      rcases List.mem_take_iff_getElem.mp hmem with ⟨i, hi, heq⟩
      exact hbefore i (by omega) (decide_eq_true heq)
    · exact List.length_take_of_le hlt.le
  · rintro ⟨inner, behind, rfl, hinner, rfl⟩
    have hnone : inner.findIdx? (· = 34) = none :=
      List.findIdx?_eq_none_iff.mpr fun b hb =>
        decide_eq_false fun heq : b = 34 => hinner (heq ▸ hb)
    rw [List.findIdx?_append, hnone]
    simp [List.findIdx?_cons]

theorem drop_render (tag : EntityTag) (after : Bytes) :
    (tag.render ++ after).drop ((if tag.weak then 2 else 0) + 1)
      = tag.opaqueTag ++ 34 :: after := by
  have hassoc : tag.render ++ after
      = (if tag.weak then ascii "W/" else []) ++ 34 :: (tag.opaqueTag ++ 34 :: after) := by
    simp [EntityTag.render]
  rw [hassoc]
  cases tag.weak <;> rfl

theorem length_render (tag : EntityTag) :
    tag.render.length = (if tag.weak then 2 else 0) + 1 + tag.opaqueTag.length + 1 := by
  unfold EntityTag.render
  cases tag.weak <;> simp [ascii] <;> omega

theorem openingQuote_render (tag : EntityTag) (after : Bytes) :
    openingQuote (tag.render ++ after) = some (if tag.weak then 2 else 0) :=
  openingQuote_eq_some.mpr ⟨tag.weak, tag.opaqueTag ++ 34 :: after, rfl, by simp [EntityTag.render]⟩

theorem nextTag_eq_ok {remainder after : Bytes} {tag : EntityTag} :
    nextTag remainder = .ok (tag, after) ↔ tag.Legal ∧ remainder = tag.render ++ after := by
  simp only [nextTag, bind_eq_ok, okOr_eq_ok, pure_eq_ok]
  constructor
  · rintro ⟨quote, hquote, position, hposition, tag', htag, heq⟩
    rcases openingQuote_eq_some.mp hquote with ⟨weak, rest, rfl, rfl⟩
    have hdrop : ((if weak then ascii "W/" else []) ++ 34 :: rest).drop
        ((if weak then 2 else 0) + 1) = rest := by
      cases weak <;> rfl
    rw [hdrop] at hposition
    rcases findIdx_quote.mp hposition with ⟨inner, behind, rfl, -, rfl⟩
    have hrender : (if weak then ascii "W/" else []) ++ 34 :: (inner ++ 34 :: behind)
        = (EntityTag.mk weak inner).render ++ behind := by
      simp [EntityTag.render]
    have hlength := length_render ⟨weak, inner⟩
    rw [hrender, ← hlength, List.take_left] at htag
    rw [hrender, ← hlength, List.drop_left] at heq
    rcases parse_render.mp htag with ⟨hlegal, rfl⟩
    cases heq
    exact ⟨hlegal, hrender⟩
  · rintro ⟨hlegal, rfl⟩
    have hinner : (34 : UInt8) ∉ tag.opaqueTag := fun hmem =>
      absurd (hlegal 34 hmem) (by decide)
    refine ⟨_, openingQuote_render tag after, tag.opaqueTag.length, ?_, tag, ?_, ?_⟩
    · rw [drop_render]
      exact findIdx_quote.mpr ⟨_, _, rfl, hinner, rfl⟩
    · rw [← length_render, List.take_left]
      exact parse_render.mpr ⟨hlegal, rfl⟩
    · rw [← length_render, List.drop_left]

/-! ## 5. The loop -/

/-- Each turn reads one tag and the comma behind it. -/
theorem tagLoop_eq_ok {turns : Nat} {remainder : Bytes} {tags : List EntityTag}
    (hne : remainder ≠ []) (hturns : remainder.length ≤ turns) :
    tagLoop turns remainder = .ok tags ↔ Renders remainder tags := by
  induction turns generalizing remainder tags with
  | zero => exact absurd (List.length_eq_zero_iff.mp (Nat.le_zero.mp hturns)) hne
  | succ turns ih =>
    rcases exists_trimAsciiStart remainder with ⟨lead, hlead, hremainder⟩
    simp only [tagLoop, if_neg hne, bind_eq_ok]
    constructor
    · rintro ⟨⟨tag, after⟩, hnext, h⟩
      rcases nextTag_eq_ok.mp hnext with ⟨hlegal, hstart⟩
      rcases exists_trimAsciiStart after with ⟨trail, htrail, hafter⟩
      rw [hremainder, hstart]
      split_ifs at h with hend
      · rw [hend, List.append_nil] at hafter
        rw [pure_eq_ok] at h
        subst hafter h
        exact .last hlead htrail hlegal
      · simp only [bind_eq_ok, ensure_eq_ok, pure_eq_ok] at h
        rcases h with ⟨_, hcomma, _, hrest, tags, htags, rfl⟩
        cases hbehind : trimAsciiStart after with
        | nil => exact absurd hbehind hend
        | cons comma rest =>
          rw [hbehind] at hcomma hrest htags hafter
          cases hcomma
          have hnonempty : rest ≠ [] := by
            rintro rfl
            exact hrest rfl
          have hshorter : rest.length ≤ turns := by
            have hlength := congrArg List.length hremainder
            rw [hstart, hafter] at hlength
            simp only [List.length_append, List.length_cons] at hlength
            omega
          rw [hafter]
          exact .more hlead htrail hlegal ((ih hnonempty hshorter).mp htags)
    · intro h
      cases h with
      | @last lead trail tag hlead htrail hlegal =>
        rw [trimAsciiStart_append hlead, trimAsciiStart_render]
        have hend : trimAsciiStart trail = [] := by
          rw [← List.append_nil trail, trimAsciiStart_append htrail]
          rfl
        exact ⟨(tag, trail), nextTag_eq_ok.mpr ⟨hlegal, rfl⟩, by rw [if_pos hend]; rfl⟩
      | @more lead trail rest tag tags hlead htrail hlegal hrest =>
        rw [trimAsciiStart_append hlead, trimAsciiStart_render]
        have hbehind : trimAsciiStart (trail ++ 44 :: rest) = 44 :: rest := by
          rw [trimAsciiStart_append htrail]
          rfl
        have hshorter : rest.length ≤ turns := by
          simp only [List.length_append, List.length_cons] at hturns
          omega
        refine ⟨(tag, trail ++ 44 :: rest), nextTag_eq_ok.mpr ⟨hlegal, rfl⟩, ?_⟩
        simp only [hbehind, bind_eq_ok, ensure_eq_ok, pure_eq_ok, reduceCtorEq, if_false]
        exact ⟨(), rfl, (), hrest.trimStart.ne_nil, tags,
          (ih hrest.ne_nil hshorter).mpr hrest, rfl⟩

/-- A list starts with a quote, so it is neither the wildcard nor a bare tag. -/
theorem Renders.quoted {value : Bytes} {tags : List EntityTag} (h : Renders value tags) :
    openingQuote (trimAscii value) ≠ none := by
  cases h with
  | @last lead trail tag hlead htrail _ =>
    have hend : (tag.render ++ trail).rdropWhile isAsciiWhitespace = tag.render ++ [] := by
      rw [List.append_nil]
      exact @rdropWhile_render [] trail tag htrail
    rw [trimAscii, trimAsciiStart_append hlead, trimAsciiStart_render, hend, openingQuote_render]
    exact Option.some_ne_none _
  | @more lead trail rest tag _ hlead _ _ hrest =>
    have hassoc : tag.render ++ (trail ++ 44 :: rest) = tag.render ++ (trail ++ [44]) ++ rest := by
      simp
    rw [trimAscii, trimAsciiStart_append hlead, trimAsciiStart_render, hassoc,
      rdropWhile_append_of_ne_nil hrest.trimEnd.1, List.append_assoc, openingQuote_render]
    exact Option.some_ne_none _

theorem parse_quoted {value : Bytes} {condition : TagCondition}
    (hquoted : openingQuote (trimAscii value) ≠ none) : TagCondition.parse value = .ok condition ↔
      ∃ tags, Renders value tags ∧ condition = .tags tags := by
  have hany : trimAscii value ≠ ascii "*" := fun heq => hquoted (by rw [heq]; rfl)
  have hne : trimAscii value ≠ [] := fun heq => hquoted (by rw [heq]; rfl)
  simp only [TagCondition.parse, if_neg hany, if_neg hquoted, bind_eq_ok, ensure_eq_ok,
    pure_eq_ok, tagLoop_eq_ok hne le_rfl, renders_trimAscii]
  constructor
  · rintro ⟨tags, hrenders, _, _, rfl⟩
    exact ⟨tags, hrenders, rfl⟩
  · rintro ⟨tags, hrenders, rfl⟩
    have htags : tags ≠ [] := by
      cases hrenders <;> exact List.cons_ne_nil _ _
    exact ⟨tags, hrenders, (), htags, rfl⟩

/-- Parsing inverts rendering, and what starts like a list and is none is rejected. -/
theorem tagCondition_parse_inverts_rendering (value : Bytes) :
    (∀ tags, Renders value tags → TagCondition.parse value = .ok (.tags tags))
      ∧ (openingQuote (trimAscii value) ≠ none → (∀ tags, ¬ Renders value tags) →
        ∃ error, TagCondition.parse value = .error error) := by
  constructor
  · intro tags hrenders
    exact (parse_quoted hrenders.quoted).mpr ⟨tags, hrenders, rfl⟩
  · intro hquoted hnone
    cases hparse : TagCondition.parse value with
    | error error => exact ⟨error, rfl⟩
    | ok condition =>
      rcases (parse_quoted hquoted).mp hparse with ⟨tags, hrenders, _⟩
      exact absurd hrenders (hnone tags)

/-- A comma inside a quoted tag, and whitespace around the comma between two tags. -/
theorem tagCondition_parse_inverts_rendering_comma : TagCondition.parse (ascii "\"a,b\" , W/\"c\"")
        = .ok (.tags [⟨false, ascii "a,b"⟩, ⟨true, ascii "c"⟩])
      ∧ ∃ error, TagCondition.parse (ascii "\"a\" \"b\"") = .error error := by
  have hlegal : ∀ tag : EntityTag, tag.opaqueTag.all isOpaqueByte = true → tag.Legal :=
    fun tag h => List.all_eq_true.mp h
  have hblank : IsBlank [32] := by
    simp [IsBlank, isAsciiWhitespace]
  constructor
  · exact (tagCondition_parse_inverts_rendering _).1 _
      (.more isBlank_nil hblank (hlegal ⟨false, ascii "a,b"⟩ (by decide))
        (.last hblank isBlank_nil (hlegal ⟨true, ascii "c"⟩ (by decide))))
  · have hquoted : openingQuote (trimAscii (ascii "\"a\" \"b\"")) ≠ none := by decide +kernel
    have herror : ∀ condition,
        TagCondition.parse (ascii "\"a\" \"b\"") ≠ .ok condition := by
      intro condition h
      have hreject : TagCondition.parse (ascii "\"a\" \"b\"") = .error .invalidEntityTag := by
        decide +kernel
      rw [hreject] at h
      cases h
    exact (tagCondition_parse_inverts_rendering _).2 hquoted fun tags hrenders =>
      herror _ ((parse_quoted hquoted).mpr ⟨tags, hrenders, rfl⟩)

end Pgs3.Protocol
