import Pgs3.Protocol.Xml

/-!
# Reading what was written

A document of the writer is a forest of elements under one root.  Its bytes are those of a list
of markup pieces, a reader of XML 1.0 finds these pieces again, and the parser rebuilds the
forest from them, with the ends of lines normalized.  So the parser returns the texts that were
written exactly when they have no carriage return, and the document keeps to the limits.
-/

namespace Pgs3.Protocol

open Pgs3 Foundation

/-! ## 1. A reader of XML 1.0 -/

/-- The predefined entity for a character. -/
def entityName (c : Char) : Option Text :=
  if c = '&' then some "amp".toList
  else if c = '<' then some "lt".toList
  else if c = '>' then some "gt".toList
  else if c = '"' then some "quot".toList
  else if c.toNat = 39 then some "apos".toList
  else none

/-- The event for a piece of a document. -/
def markupEvent : Markup → Event
  | .declaration => .decl
  | .start name _ => .start (.ok name) none
  | .close _ => .close
  | .text chars => .text (.ok (normalizeEol chars))
  | .reference name => .generalRef (.ok ((decodeUtf8 name).getD [])) (.ok none)

/-- **The crate reads XML 1.0**: it finds the pieces of a document with nested elements,
    normalizes the ends of lines, leaves text without references as it is and knows the
    predefined entities. -/
structure QuickXml.Standard (quick : QuickXml) : Prop where
  pieces : ∀ pieces, Nested [] pieces →
    quick.read (markupBytes pieces) = (pieces.map markupEvent, none)
  declared : ∀ pieces, Nested [] pieces →
    quick.read (markupBytes (.declaration :: pieces))
      = (.decl :: pieces.map markupEvent, none)
  unescaped : ∀ text : Text, '&' ∉ text → quick.unescape text = .ok text
  entity : ∀ c name, entityName c = some name → quick.resolveXmlEntity name = some [c]

/-! ## 2. Forests -/

/-- The calls of a writer between the start and the end of a document. -/
inductive Forest where
  | nil
  | element (name value : Text) (rest : Forest)
  | group (name : Text) (inner rest : Forest)

namespace Forest

def nodes : Forest → List Node
  | nil => []
  | element name value rest => ⟨encodeUtf8 name, value, []⟩ :: rest.nodes
  | group name inner rest => ⟨encodeUtf8 name, [], inner.nodes⟩ :: rest.nodes

/-- The forest with the ends of lines normalized. -/
def normalized : Forest → Forest
  | nil => nil
  | element name value rest => element name (normalizeEol value) rest.normalized
  | group name inner rest => group name inner.normalized rest.normalized

def values : Forest → List Text
  | nil => []
  | element _ value rest => value :: rest.values
  | group _ inner rest => inner.values ++ rest.values

def names : Forest → List Text
  | nil => []
  | element name _ rest => name :: rest.names
  | group name inner rest => name :: inner.names ++ rest.names

def height : Forest → Nat
  | nil => 0
  | element _ _ rest => max 1 rest.height
  | group _ inner rest => max (1 + inner.height) rest.height

def count : Forest → Nat
  | nil => 0
  | element _ _ rest => 1 + rest.count
  | group _ inner rest => 1 + inner.count + rest.count

def textBytes : Forest → Nat
  | nil => 0
  | element _ value rest => octetLength value + rest.textBytes
  | group _ inner rest => inner.textBytes + rest.textBytes

/-- The tree of the document with this root. -/
def tree (forest : Forest) (root : Text) : Node := ⟨encodeUtf8 root, [], forest.nodes⟩

/-- Names are names, and values consist of characters of XML. -/
structure Legal (forest : Forest) : Prop where
  names : ∀ name ∈ forest.names, IsName (encodeUtf8 name)
  values : ∀ value ∈ forest.values, ∀ c ∈ value, isXmlChar c = true

end Forest

/-- The calls, one after the other. -/
def XmlWriter.forest (writer : XmlWriter) : Forest → XmlWriter
  | .nil => writer
  | .element name value rest => (writer.element name value).forest rest
  | .group name inner rest => (((writer.start name).forest inner).close name).forest rest

/-! ## 3. The pieces of a value -/

/-- A character in front of pieces, joined to the text that stands first. -/
def joinText (c : Char) : List Markup → List Markup
  | .text chars :: rest => .text (c :: chars) :: rest
  | pieces => .text [c] :: pieces

def valuePieces : Text → List Markup
  | [] => []
  | c :: value =>
      match entityName c with
      | some name => .reference (encodeUtf8 name) :: valuePieces value
      | none => joinText c (valuePieces value)

theorem escapedChar_eq (c : Char) :
    escapedChar c = match entityName c with
      | some name => 38 :: encodeUtf8 name ++ [59]
      | none => String.utf8EncodeChar c := by
  unfold escapedChar entityName
  split_ifs <;> rfl

variable {c : Char}

theorem ne_of_entityName (h : entityName c = none) : c ≠ '&' ∧ c ≠ '<' := by
  constructor
  · rintro rfl
    cases h
  · rintro rfl
    cases h

theorem markupBytes_joinText (c : Char) (pieces : List Markup) :
    markupBytes (joinText c pieces) = String.utf8EncodeChar c ++ markupBytes pieces := by
  unfold joinText
  split
  · simp [markupBytes, Markup.bytes, encodeUtf8]
  · simp [markupBytes, Markup.bytes, encodeUtf8]

theorem markupBytes_valuePieces (value : Text) :
    markupBytes (valuePieces value) = value.flatMap escapedChar := by
  induction value with
  | nil => rfl
  | cons c value ih =>
    rw [valuePieces, List.flatMap_cons, ← ih]
    rw [escapedChar_eq]
    cases hname : entityName c with
    | some name => rfl
    | none => exact markupBytes_joinText c _

def NoTextFirst (pieces : List Markup) : Prop := pieces.head?.any Markup.isText = false

theorem noTextFirst_close (name : Bytes) (rest : List Markup) : NoTextFirst (.close name :: rest) :=
  rfl

theorem isName_of_entityName {name : Text} (h : entityName c = some name) :
    IsName (encodeUtf8 name) := by
  have hname : name ∈ ["amp", "lt", "gt", "quot", "apos"].map String.toList := by
    unfold entityName at h
    split_ifs at h <;> cases h <;> decide
  have hall : ∀ name ∈ ["amp", "lt", "gt", "quot", "apos"].map String.toList,
      (encodeUtf8 name).head?.any isAsciiLetter = true ∧
        ∀ b ∈ encodeUtf8 name, isNameByte b = true := by
    decide +kernel
  exact ⟨(hall name hname).1, (hall name hname).2⟩

theorem nested_joinText {opened : List Bytes} {pieces : List Markup}
    (hc : isXmlChar c = true ∧ c ≠ '<' ∧ c ≠ '&') (hopened : opened ≠ [])
    (h : Nested opened pieces) : Nested opened (joinText c pieces) := by
  cases pieces with
  | nil => exact absurd h hopened
  | cons piece rest =>
    cases piece with
    | text chars =>
      rcases h with ⟨⟨_, hchars⟩, hrest⟩
      refine ⟨⟨List.cons_ne_nil _ _, ?_⟩, hrest⟩
      intro d hd
      rcases List.mem_cons.mp hd with rfl | hd
      · exact hc
      · exact hchars d hd
    | _ =>
      refine ⟨⟨List.cons_ne_nil _ _, ?_⟩, hopened, rfl, h⟩
      intro d hd
      rw [List.mem_singleton.mp hd]
      exact hc

variable {value : Text} {rest : List Markup}

/-- A value fits in front of anything that does not begin with text. -/
theorem nested_valuePieces (hvalue : ∀ c ∈ value, isXmlChar c = true) {opened : List Bytes}
    (hopened : opened ≠ []) (hrest : NoTextFirst rest) (h : Nested opened rest) :
    Nested opened (valuePieces value ++ rest) := by
  induction value with
  | nil => exact h
  | cons c value ih =>
    have htail := ih fun d hd => hvalue d (List.mem_cons_of_mem _ hd)
    rw [valuePieces]
    cases hname : entityName c with
    | some name => exact ⟨isName_of_entityName hname, hopened, htail⟩
    | none =>
      have hc := ne_of_entityName hname
      have hjoin : joinText c (valuePieces value) ++ rest
          = joinText c (valuePieces value ++ rest) := by
        cases hpieces : valuePieces value with
        | cons piece pieces => cases piece <;> rfl
        | nil =>
          cases rest with
          | nil => rfl
          | cons piece rest =>
            cases piece with
            | text chars => cases hrest
            | _ => rfl
      dsimp only
      rw [hjoin]
      exact nested_joinText ⟨hvalue c List.mem_cons_self, hc.2, hc.1⟩ hopened htail

/-! ## 4. What a value is read as -/

section Reading

variable {quick : QuickXml} {limits : XmlLimits}

def pieceText (quick : QuickXml) : Markup → Text
  | .text chars => normalizeEol chars
  | .reference name => (quick.resolveXmlEntity ((decodeUtf8 name).getD [])).getD []
  | _ => []

theorem joinText_eq (c : Char) (pieces : List Markup) :
    ∃ chars rest, joinText c pieces = .text (c :: chars) :: rest := by
  unfold joinText
  split
  · exact ⟨_, _, rfl⟩
  · exact ⟨_, _, rfl⟩

theorem head_valuePieces (value : Text) :
    (∃ chars rest, valuePieces value = .text chars :: rest ∧ chars.head? = value.head?)
      ∨ NoTextFirst (valuePieces value) ∧ value.head? ≠ some '\n' := by
  cases value with
  | nil => exact .inr ⟨rfl, by simp⟩
  | cons c value =>
    rw [valuePieces]
    cases hname : entityName c with
    | some name =>
      refine .inr ⟨rfl, ?_⟩
      rintro ⟨⟩
      cases hname
    | none =>
      rcases joinText_eq c (valuePieces value) with ⟨chars, rest, hjoin⟩
      exact .inl ⟨c :: chars, rest, hjoin, rfl⟩

theorem pieceText_joinText
    (ih : (valuePieces value).flatMap (pieceText quick) = normalizeEol value) :
    (joinText c (valuePieces value)).flatMap (pieceText quick) = normalizeEol (c :: value) := by
  rcases head_valuePieces value with ⟨chars, rest, hpieces, hhead⟩ | ⟨hfirst, hnot⟩
  · rw [hpieces, List.flatMap_cons] at ih
    change normalizeEol chars ++ _ = _ at ih
    rw [hpieces]
    change normalizeEol (c :: chars) ++ _ = _
    rw [normalizeEol, normalizeEol, ← ih, hhead]
    split
    · split <;> rfl
    · rfl
  · have hjoin : joinText c (valuePieces value) = .text [c] :: valuePieces value := by
      unfold joinText
      split
      · rename_i hpieces
        rw [hpieces] at hfirst
        cases hfirst
      · rfl
    rw [hjoin, List.flatMap_cons, ih]
    change normalizeEol [c] ++ _ = normalizeEol (c :: value)
    simp only [normalizeEol, if_neg hnot]
    split <;> rfl

/-- The pieces of a value stand for the value with its ends of lines normalized. -/
theorem flatMap_pieceText (hquick : quick.Standard) (value : Text) :
    (valuePieces value).flatMap (pieceText quick) = normalizeEol value := by
  induction value with
  | nil => rfl
  | cons c value ih =>
    rw [valuePieces]
    cases hname : entityName c with
    | some name =>
      have hc : c ≠ '\r' := by
        rintro rfl
        cases hname
      rw [normalizeEol_cons_of_ne hc, ← ih]
      simp only [List.flatMap_cons, pieceText, decodeUtf8_encodeUtf8, Option.getD_some,
        hquick.entity c name hname]
      rfl
    | none => exact pieceText_joinText ih

/-! ## 5. The parser on pieces -/

/-- The most text, and the most elements, that the counters admit. -/
def XmlLimits.textCap (limits : XmlLimits) : Nat := min limits.maxTextBytes (2 ^ 64 - 1)

def XmlLimits.nodeCap (limits : XmlLimits) : Nat := min limits.maxNodes (2 ^ 64 - 1)

/-- There is room for this many levels, elements and bytes of text. -/
structure Room (limits : XmlLimits) (state : ParseState) (levels nodes textBytes : Nat) :
    Prop where
  levels : state.stack.length + levels ≤ limits.maxDepth
  nodes : state.nodes + nodes ≤ limits.nodeCap
  textBytes : state.textBytes + textBytes ≤ limits.textCap

/-- The innermost element has got this text and these children, with so many elements and so
    much text in all. -/
def ParseState.grown (state : ParseState) (text : Text) (children : List Node)
    (nodes textBytes : Nat) : ParseState :=
  { state with
    stack := state.stack.modifyHead fun node =>
      { node with text := node.text ++ text, children := node.children ++ children }
    nodes := state.nodes + nodes
    textBytes := state.textBytes + textBytes }

theorem ParseState.grown_grown (state : ParseState) (text text' : Text)
    (children children' : List Node) (nodes nodes' textBytes textBytes' : Nat) :
    (state.grown text children nodes textBytes).grown text' children' nodes' textBytes'
      = state.grown (text ++ text') (children ++ children') (nodes + nodes')
          (textBytes + textBytes') := by
  rcases state with ⟨stack, root, count, total, saw⟩
  cases stack with
  | nil => simp [ParseState.grown, Nat.add_assoc]
  | cons node outer => simp [ParseState.grown, Nat.add_assoc, List.append_assoc]

theorem ParseState.grown_nil (state : ParseState) : state.grown [] [] 0 0 = state := by
  rcases state with ⟨stack, root, count, total, saw⟩
  cases stack with
  | nil => rfl
  | cons node outer =>
    cases node
    simp [ParseState.grown]

@[simp] theorem ParseState.length_grown (state : ParseState) (text : Text)
    (children : List Node) (nodes textBytes : Nat) :
    (state.grown text children nodes textBytes).stack.length = state.stack.length := by
  simp [ParseState.grown]

def runs (quick : QuickXml) (limits : XmlLimits) (state : ParseState) (pieces : List Markup) :
    Except XmlError ParseState :=
  (pieces.map markupEvent).foldlM (parseEvent quick limits) state

theorem runs_cons (state : ParseState) (piece : Markup) (pieces : List Markup) :
    runs quick limits state (piece :: pieces)
      = parseEvent quick limits state (markupEvent piece) >>= fun state =>
        runs quick limits state pieces := by
  rw [runs, List.map_cons, List.foldlM_cons]
  rfl

theorem runs_append (state : ParseState) (pieces pieces' : List Markup) :
    runs quick limits state (pieces ++ pieces')
      = runs quick limits state pieces >>= fun state => runs quick limits state pieces' := by
  rw [runs, List.map_append, List.foldlM_append]
  rfl

variable {state state' : ParseState}

theorem appendText_eq_ok (hstack : state.stack ≠ []) {text : Text} :
    appendText limits state text = .ok state' ↔ state.textBytes + octetLength text ≤ limits.textCap
        ∧ state' = state.grown text [] 0 (octetLength text) := by
  rcases state with ⟨stack, root, count, total, saw⟩
  cases stack with
  | nil => exact absurd rfl hstack
  | cons node outer =>
    simp only [appendText, bind_eq_ok, ensure_eq_ok, pure_eq_ok, XmlLimits.textCap,
      ParseState.grown, List.modifyHead_cons, List.append_nil, Nat.add_zero]
    constructor
    · rintro ⟨_, hsmall, _, hmax, rfl⟩
      exact ⟨by omega, rfl⟩
    · rintro ⟨hcap, rfl⟩
      exact ⟨(), by omega, (), by omega, rfl⟩

/-- A piece of a value. -/
def IsValuePiece : Markup → Prop
  | .text chars => '&' ∉ chars
  | .reference name => ∃ c entity, entityName c = some entity ∧ name = encodeUtf8 entity
  | _ => False

theorem parseEvent_value (hquick : quick.Standard) {piece : Markup} (hpiece : IsValuePiece piece)
    (state : ParseState) : parseEvent quick limits state (markupEvent piece)
      = appendText limits state (pieceText quick piece) := by
  cases piece with
  | text chars =>
    have hplain : '&' ∉ normalizeEol chars := by
      intro hmem
      rcases mem_normalizeEol hmem with hmem | hmem
      · exact hpiece hmem
      · exact absurd hmem (by decide)
    change (orMalformed (quick.unescape (normalizeEol chars)) >>= fun decoded =>
      appendText limits state decoded) = _
    rw [hquick.unescaped _ hplain]
    rfl
  | reference name =>
    rcases hpiece with ⟨c, entity, hentity, rfl⟩
    change (okOr .forbiddenConstruct (quick.resolveXmlEntity
      ((decodeUtf8 (encodeUtf8 entity)).getD [])) >>= fun resolved =>
        appendText limits state resolved) = appendText limits state
      ((quick.resolveXmlEntity ((decodeUtf8 (encodeUtf8 entity)).getD [])).getD [])
    rw [decodeUtf8_encodeUtf8, Option.getD_some, hquick.entity c entity hentity]
    rfl
  | declaration => exact hpiece.elim
  | start name attributes => exact hpiece.elim
  | close name => exact hpiece.elim

theorem octetLength_append (text text' : Text) :
    octetLength (text ++ text') = octetLength text + octetLength text' := by
  simp [octetLength]

theorem runs_values (hquick : quick.Standard) {pieces : List Markup}
    (hpieces : ∀ piece ∈ pieces, IsValuePiece piece) (hstack : state.stack ≠ [])
    (hroom : Room limits state 0 0 0) : runs quick limits state pieces = .ok state' ↔
      Room limits state 0 0 (octetLength (pieces.flatMap (pieceText quick)))
        ∧ state' = state.grown (pieces.flatMap (pieceText quick)) [] 0
            (octetLength (pieces.flatMap (pieceText quick))) := by
  induction pieces generalizing state with
  | nil =>
    simp only [runs, List.map_nil, List.foldlM_nil, pure_eq_ok, List.flatMap_nil]
    change _ ↔ Room limits state 0 0 0 ∧ state' = state.grown [] [] 0 0
    rw [state.grown_nil, and_iff_right hroom]
    exact eq_comm
  | cons piece pieces ih =>
    rw [runs_cons, parseEvent_value hquick (hpieces piece List.mem_cons_self), bind_eq_ok,
      List.flatMap_cons, octetLength_append]
    have hrest := fun p hp => hpieces p (List.mem_cons_of_mem _ hp)
    constructor
    · rintro ⟨next, hnext, hruns⟩
      rcases (appendText_eq_ok hstack).mp hnext with ⟨hcap, rfl⟩
      have hstack' : (state.grown (pieceText quick piece) [] 0
          (octetLength (pieceText quick piece))).stack ≠ [] := by
        simpa [← List.length_pos_iff] using hstack
      rcases (ih hrest hstack' ⟨by simpa using hroom.levels, hroom.nodes, hcap⟩).mp hruns with
        ⟨hroom', rfl⟩
      refine ⟨⟨hroom.levels, hroom.nodes, ?_⟩, ?_⟩
      · have hbytes := hroom'.textBytes
        simp only [ParseState.grown] at hbytes
        omega
      · rw [ParseState.grown_grown]
        rfl
    · rintro ⟨hroom', rfl⟩
      have hbytes := hroom'.textBytes
      have hstack' : (state.grown (pieceText quick piece) [] 0
          (octetLength (pieceText quick piece))).stack ≠ [] := by
        simpa [← List.length_pos_iff] using hstack
      have hcap : state.textBytes + octetLength (pieceText quick piece) ≤ limits.textCap := by
        omega
      refine ⟨_, (appendText_eq_ok hstack).mpr ⟨hcap, rfl⟩, ?_⟩
      rw [ih hrest hstack' ⟨by simpa using hroom.levels, hroom.nodes, hcap⟩,
        ParseState.grown_grown]
      refine ⟨⟨by simpa using hroom.levels, hroom.nodes, ?_⟩, rfl⟩
      simp only [ParseState.grown]
      omega

theorem isValuePiece_valuePieces : ∀ piece ∈ valuePieces value, IsValuePiece piece := by
  induction value with
  | nil =>
    intro piece hpiece
    cases hpiece
  | cons c value ih =>
    intro piece hpiece
    rw [valuePieces] at hpiece
    cases hname : entityName c with
    | some name =>
      rw [hname] at hpiece
      rcases List.mem_cons.mp hpiece with rfl | hpiece
      · exact ⟨c, name, hname, rfl⟩
      · exact ih piece hpiece
    | none =>
      have hc := (ne_of_entityName hname).1
      rw [hname] at hpiece
      dsimp only at hpiece
      unfold joinText at hpiece
      split at hpiece
      · rename_i chars rest hpieces
        have hchars : '&' ∉ chars := ih (.text chars) (by rw [hpieces]; exact List.mem_cons_self)
        rcases List.mem_cons.mp hpiece with rfl | hpiece
        · exact List.not_mem_cons_of_ne_of_not_mem hc.symm hchars
        · exact ih piece (by rw [hpieces]; exact List.mem_cons_of_mem _ hpiece)
      · rcases List.mem_cons.mp hpiece with rfl | hpiece
        · exact List.not_mem_cons_of_ne_of_not_mem hc.symm List.not_mem_nil
        · exact ih piece hpiece

/-- **The parser on a value.** -/
theorem runs_valuePieces (hquick : quick.Standard) (hstack : state.stack ≠ [])
    (hroom : Room limits state 0 0 0) : runs quick limits state (valuePieces value) = .ok state' ↔
      Room limits state 0 0 (octetLength (normalizeEol value))
        ∧ state' = state.grown (normalizeEol value) [] 0 (octetLength (normalizeEol value)) := by
  rw [runs_values hquick isValuePiece_valuePieces hstack hroom, flatMap_pieceText hquick]

def ParseState.opened (state : ParseState) (name : Bytes) : ParseState :=
  { state with
    nodes := state.nodes + 1
    stack := ⟨name, [], []⟩ :: state.stack }

theorem parseEvent_start {name : Bytes} {attributes : List (Bytes × Bytes)} :
    parseEvent quick limits state (markupEvent (.start name attributes)) = .ok state' ↔
      state.stack.length + 1 ≤ limits.maxDepth ∧ state.nodes + 1 ≤ limits.nodeCap
        ∧ state' = state.opened name := by
  simp only [parseEvent, markupEvent, bind_eq_ok, ensure_eq_ok, pure_eq_ok, orMalformed,
    mapError_eq_ok, XmlLimits.nodeCap, ParseState.opened]
  constructor
  · rintro ⟨_, hdepth, _, hsmall, _, hmax, _, hname, rfl⟩
    cases hname
    exact ⟨hdepth, by omega, rfl⟩
  · rintro ⟨hdepth, hcap, rfl⟩
    exact ⟨(), hdepth, (), by omega, (), by omega, name, rfl, rfl⟩

/-- A tag closes the innermost element, which becomes a child of the one around it. -/
theorem parseEvent_close (hstack : state.stack ≠ []) (name : Bytes) (text : Text)
    (children : List Node) (nodes textBytes : Nat) (closed : Bytes) :
    parseEvent quick limits ((state.opened name).grown text children nodes textBytes)
        (markupEvent (.close closed))
      = .ok (state.grown [] [⟨name, text, children⟩] (1 + nodes) textBytes) := by
  rcases state with ⟨stack, root, count, total, saw⟩
  cases stack with
  | nil => exact absurd rfl hstack
  | cons node outer =>
    simp [parseEvent, markupEvent, ParseState.opened, ParseState.grown, Nat.add_assoc, pure,
      Except.pure]

/-- Inside an open element, the parser takes these pieces to this text and these children, as
    far as there is room. -/
def Reads (quick : QuickXml) (limits : XmlLimits) (pieces : List Markup) (text : Text)
    (children : List Node) (levels nodes textBytes : Nat) : Prop :=
  ∀ state state' : ParseState, state.stack ≠ [] → Room limits state 0 0 0 →
    (runs quick limits state pieces = .ok state' ↔
      Room limits state levels nodes textBytes
        ∧ state' = state.grown text children nodes textBytes)

theorem ParseState.grown_ne_nil (h : state.stack ≠ []) (text : Text) (children : List Node)
    (nodes textBytes : Nat) : (state.grown text children nodes textBytes).stack ≠ [] := by
  rw [← List.length_pos_iff, ParseState.length_grown, List.length_pos_iff]
  exact h

theorem reads_nil : Reads quick limits [] [] [] 0 0 0 := by
  intro state state' _ hroom
  simp only [runs, List.map_nil, List.foldlM_nil, pure_eq_ok]
  rw [state.grown_nil, and_iff_right hroom]
  exact eq_comm

theorem reads_valuePieces (hquick : quick.Standard) (value : Text) :
    Reads quick limits (valuePieces value) (normalizeEol value) [] 0 0
      (octetLength (normalizeEol value)) := by
  intro state state' hstack hroom
  exact runs_valuePieces hquick hstack hroom

theorem Reads.tagged {inner : List Markup} {text : Text} {children others : List Node}
    {levels nodes textBytes levels' nodes' textBytes' : Nat}
    (hinner : Reads quick limits inner text children levels nodes textBytes)
    (hrest : Reads quick limits rest [] others levels' nodes' textBytes') (name : Bytes) :
    Reads quick limits (.start name [] :: (inner ++ .close name :: rest)) []
      (⟨name, text, children⟩ :: others) (max (1 + levels) levels') (1 + nodes + nodes')
      (textBytes + textBytes') := by
  intro state state' hstack hroom
  have hopened : (state.opened name).stack ≠ [] := List.cons_ne_nil _ _
  have hclosed := ParseState.grown_ne_nil hstack [] [⟨name, text, children⟩] (1 + nodes) textBytes
  have hlevels := hroom.levels
  have hnodes := hroom.nodes
  have hbytes := hroom.textBytes
  simp only [runs_cons, runs_append, bind_eq_ok, parseEvent_start]
  constructor
  · rintro ⟨_, ⟨hdepth, hcount, rfl⟩, middle, hruns, next, hnext, hafter⟩
    have hroom₁ : Room limits (state.opened name) 0 0 0 := ⟨hdepth, hcount, hbytes⟩
    rcases (hinner _ _ hopened hroom₁).mp hruns with ⟨hin, rfl⟩
    rw [parseEvent_close hstack] at hnext
    cases hnext
    have hin₁ := hin.levels
    have hin₂ := hin.nodes
    have hin₃ := hin.textBytes
    simp only [ParseState.opened, List.length_cons] at hin₁ hin₂ hin₃
    have hroom₂ : Room limits
        (state.grown [] [⟨name, text, children⟩] (1 + nodes) textBytes) 0 0 0 := by
      refine ⟨by simpa using hlevels, ?_, ?_⟩
      · simp only [ParseState.grown]
        omega
      · simp only [ParseState.grown]
        omega
    rcases (hrest _ _ hclosed hroom₂).mp hafter with ⟨hout, rfl⟩
    have hout₁ := hout.levels
    have hout₂ := hout.nodes
    have hout₃ := hout.textBytes
    rw [ParseState.length_grown] at hout₁
    simp only [ParseState.grown] at hout₂ hout₃
    rw [ParseState.grown_grown]
    exact ⟨⟨by omega, by omega, by omega⟩, rfl⟩
  · rintro ⟨hall, rfl⟩
    have hall₁ := hall.levels
    have hall₂ := hall.nodes
    have hall₃ := hall.textBytes
    have hroom₁ : Room limits (state.opened name) 0 0 0 := by
      refine ⟨?_, ?_, hbytes⟩
      · simp only [ParseState.opened, List.length_cons]
        omega
      · simp only [ParseState.opened]
        omega
    have hin : Room limits (state.opened name) levels nodes textBytes := by
      refine ⟨?_, ?_, ?_⟩ <;> simp only [ParseState.opened, List.length_cons] <;> omega
    have hroom₂ : Room limits
        (state.grown [] [⟨name, text, children⟩] (1 + nodes) textBytes) levels' nodes'
        textBytes' := by
      refine ⟨?_, ?_, ?_⟩
      · rw [ParseState.length_grown]
        omega
      · simp only [ParseState.grown]
        omega
      · simp only [ParseState.grown]
        omega
    refine ⟨_, ⟨by omega, by omega, rfl⟩, _, (hinner _ _ hopened hroom₁).mpr ⟨hin, rfl⟩, _,
      parseEvent_close hstack name text children nodes textBytes name, ?_⟩
    rw [hrest _ _ hclosed ⟨?_, ?_, ?_⟩, ParseState.grown_grown]
    · exact ⟨hroom₂, rfl⟩
    · exact (Nat.le_add_right _ _).trans hroom₂.levels
    · exact (Nat.le_add_right _ _).trans hroom₂.nodes
    · exact (Nat.le_add_right _ _).trans hroom₂.textBytes

end Reading

/-! ## 6. The parser on a forest -/

namespace Forest

def pieces : Forest → List Markup
  | nil => []
  | element name value rest =>
      .start (encodeUtf8 name) [] ::
        (valuePieces value ++ .close (encodeUtf8 name) :: rest.pieces)
  | group name inner rest =>
      .start (encodeUtf8 name) [] :: (inner.pieces ++ .close (encodeUtf8 name) :: rest.pieces)

theorem reads {quick : QuickXml} (hquick : quick.Standard) (limits : XmlLimits) (forest : Forest) :
    Reads quick limits forest.pieces [] forest.normalized.nodes forest.height forest.count
      forest.normalized.textBytes := by
  induction forest with
  | nil => exact reads_nil
  | element name value rest ih => exact (reads_valuePieces hquick value).tagged ih _
  | group name inner rest ihinner ihrest => exact ihinner.tagged ihrest _

theorem nested {forest : Forest} (h : forest.Legal) {opened : List Bytes} (hopened : opened ≠ [])
    (hrest : NoTextFirst rest) (hnested : Nested opened rest) :
    Nested opened (forest.pieces ++ rest) ∧ NoTextFirst (forest.pieces ++ rest) := by
  induction forest generalizing opened rest with
  | nil => exact ⟨hnested, hrest⟩
  | element name value others ih =>
    have hname := h.names name List.mem_cons_self
    have hothers : others.Legal :=
      ⟨fun n hn => h.names n (List.mem_cons_of_mem _ hn),
        fun v hv => h.values v (List.mem_cons_of_mem _ hv)⟩
    have hafter := (ih hothers hopened hrest hnested).1
    simp only [pieces, List.cons_append, List.append_assoc]
    refine ⟨⟨⟨hname, by simp⟩, ?_⟩, rfl⟩
    exact nested_valuePieces (h.values value List.mem_cons_self) (List.cons_ne_nil _ _) rfl
      ⟨hname, opened, rfl, hafter⟩
  | group name inner others ihinner ihothers =>
    have hname := h.names name List.mem_cons_self
    have hinner : inner.Legal :=
      ⟨fun n hn => h.names n (List.mem_cons_of_mem _ (List.mem_append_left _ hn)),
        fun v hv => h.values v (List.mem_append_left _ hv)⟩
    have hothers : others.Legal :=
      ⟨fun n hn => h.names n (List.mem_cons_of_mem _ (List.mem_append_right _ hn)),
        fun v hv => h.values v (List.mem_append_right _ hv)⟩
    have hafter := (ihothers hothers hopened hrest hnested).1
    simp only [pieces, List.cons_append, List.append_assoc]
    refine ⟨⟨⟨hname, by simp⟩, ?_⟩, rfl⟩
    have hend : Nested (encodeUtf8 name :: opened)
        (.close (encodeUtf8 name) :: (others.pieces ++ rest)) :=
      ⟨hname, opened, rfl, hafter⟩
    exact (ihinner hinner (List.cons_ne_nil _ _) (noTextFirst_close _ _) hend).1

@[simp] theorem height_normalized (forest : Forest) : forest.normalized.height = forest.height := by
  induction forest with
  | nil => rfl
  | element name value rest ih => rw [normalized, height, height, ih]
  | group name inner rest ihinner ihrest => rw [normalized, height, height, ihinner, ihrest]

@[simp] theorem count_normalized (forest : Forest) : forest.normalized.count = forest.count := by
  induction forest with
  | nil => rfl
  | element name value rest ih => rw [normalized, count, count, ih]
  | group name inner rest ihinner ihrest => rw [normalized, count, count, ihinner, ihrest]

theorem normalized_eq_self {forest : Forest} (h : ∀ value ∈ forest.values, '\r' ∉ value) :
    forest.normalized = forest := by
  induction forest with
  | nil => rfl
  | element name value rest ih =>
    rw [normalized, normalizeEol_eq_self.mpr (h value List.mem_cons_self),
      ih fun v hv => h v (List.mem_cons_of_mem _ hv)]
  | group name inner rest ihinner ihrest =>
    rw [normalized, ihinner fun v hv => h v (List.mem_append_left _ hv),
      ihrest fun v hv => h v (List.mem_append_right _ hv)]

theorem normalized_nodes_eq {forest : Forest} :
    forest.normalized.nodes = forest.nodes ↔ ∀ value ∈ forest.values, '\r' ∉ value := by
  induction forest with
  | nil => simp [normalized, values]
  | element name value rest ih =>
    simp [normalized, nodes, values, ih, normalizeEol_eq_self]
  | group name inner rest ihinner ihrest =>
    simp only [normalized, nodes, values, List.cons.injEq, Node.mk.injEq, true_and, ihinner,
      ihrest, List.mem_append, or_imp, forall_and]

end Forest

/-! ## 7. Documents -/

def documentPieces (root : Text) (attributes : List (Bytes × Bytes)) (forest : Forest) :
    List Markup :=
  .start (encodeUtf8 root) attributes :: (forest.pieces ++ [.close (encodeUtf8 root)])

def documentBytes (declared : Bool) (root : Text) (attributes : List (Bytes × Bytes))
    (forest : Forest) : Bytes :=
  markupBytes ((if declared then [.declaration] else []) ++ documentPieces root attributes forest)

/-- The document keeps to the limits. -/
structure Fits (limits : XmlLimits) (bytes : Bytes) (forest : Forest) : Prop where
  document : bytes.length ≤ limits.maxDocumentBytes
  levels : 1 + forest.height ≤ limits.maxDepth
  nodes : 1 + forest.count ≤ limits.nodeCap
  text : forest.textBytes ≤ limits.textCap

/-- The root and the attributes of a document have proper names, and so has what is inside. -/
structure LegalDocument (root : Text) (attributes : List (Bytes × Bytes)) (forest : Forest) :
    Prop where
  root : IsName (encodeUtf8 root)
  attributes : (attributes.map Prod.fst).Nodup
    ∧ ∀ pair ∈ attributes, IsName pair.1 ∧ PlainValue pair.2
  forest : forest.Legal

theorem nested_documentPieces {root : Text} {attributes : List (Bytes × Bytes)} {forest : Forest}
    (h : LegalDocument root attributes forest) :
    Nested [] (documentPieces root attributes forest) := by
  have hend : Nested [encodeUtf8 root] [.close (encodeUtf8 root)] := ⟨h.root, [], rfl, rfl⟩
  have hinside := Forest.nested h.forest (List.cons_ne_nil _ _) (noTextFirst_close _ _) hend
  exact ⟨⟨h.root, h.attributes⟩, hinside.1⟩

theorem read_documentBytes {quick : QuickXml} (hquick : quick.Standard) {root : Text}
    {attributes : List (Bytes × Bytes)} {forest : Forest}
    (h : LegalDocument root attributes forest) (declared : Bool) :
    quick.read (documentBytes declared root attributes forest)
      = ((if declared then [.decl] else []) ++
          (documentPieces root attributes forest).map markupEvent, none) := by
  cases declared with
  | false => exact hquick.pieces _ (nested_documentPieces h)
  | true => exact hquick.declared _ (nested_documentPieces h)

/-- The parser on a whole document, from a state in which nothing is open. -/
theorem runs_documentPieces {quick : QuickXml} (hquick : quick.Standard) (limits : XmlLimits)
    (root : Text) (attributes : List (Bytes × Bytes)) (forest : Forest) (saw : Bool)
    (state : ParseState) :
    runs quick limits { ParseState.initial with sawDeclaration := saw }
        (documentPieces root attributes forest) = .ok state ↔
      (1 + forest.height ≤ limits.maxDepth ∧ 1 + forest.count ≤ limits.nodeCap
        ∧ forest.normalized.textBytes ≤ limits.textCap)
      ∧ state = { stack := [], root := some (forest.normalized.tree root),
                  nodes := 1 + forest.count, textBytes := forest.normalized.textBytes,
                  sawDeclaration := saw } := by
  have hreads := forest.reads hquick limits
  have hstack : (ParseState.opened { ParseState.initial with sawDeclaration := saw }
      (encodeUtf8 root)).stack ≠ [] := List.cons_ne_nil _ _
  simp only [documentPieces, runs_cons, runs_append, bind_eq_ok, parseEvent_start]
  constructor
  · rintro ⟨_, ⟨hdepth, hcount, rfl⟩, middle, hruns, next, hnext, hafter⟩
    rcases (hreads _ _ hstack ⟨hdepth, hcount, Nat.zero_le _⟩).mp hruns with ⟨hroom, rfl⟩
    cases hnext
    cases hafter
    have hlevels := hroom.levels
    have hnodes := hroom.nodes
    have hbytes := hroom.textBytes
    simp only [ParseState.opened, ParseState.initial, List.length_cons, List.length_nil,
      Nat.zero_add] at hlevels hnodes hbytes
    refine ⟨⟨hlevels, hnodes, hbytes⟩, ?_⟩
    simp [ParseState.opened, ParseState.grown, ParseState.initial, Forest.tree]
  · rintro ⟨⟨hlevels, hnodes, hbytes⟩, rfl⟩
    have hroom : Room limits (ParseState.opened
        { ParseState.initial with sawDeclaration := saw } (encodeUtf8 root))
        forest.height forest.count forest.normalized.textBytes := by
      refine ⟨hlevels, hnodes, ?_⟩
      simpa [ParseState.opened, ParseState.initial] using hbytes
    have hzero : Room limits (ParseState.opened
        { ParseState.initial with sawDeclaration := saw } (encodeUtf8 root)) 0 0 0 :=
      ⟨(Nat.le_add_right _ _).trans hroom.levels, (Nat.le_add_right _ _).trans hroom.nodes,
        Nat.zero_le _⟩
    refine ⟨_, ⟨(Nat.le_add_right 1 _).trans hlevels, (Nat.le_add_right 1 _).trans hnodes, rfl⟩,
      _, (hreads _ _ hstack hzero).mpr ⟨hroom, rfl⟩, _, rfl, ?_⟩
    simp [runs, ParseState.opened, ParseState.grown, ParseState.initial, Forest.tree, pure,
      Except.pure]

section Documents

variable {quick : QuickXml} {limits : XmlLimits} {root : Text}
  {attributes : List (Bytes × Bytes)} {forest : Forest}

/-- **What the parser makes of a document**: the forest with the ends of lines normalized, if
    that keeps to the limits. -/
theorem parseTree_documentBytes (hquick : quick.Standard)
    (h : LegalDocument root attributes forest) (declared : Bool) {node : Node} :
    parseTree quick (documentBytes declared root attributes forest) limits = .ok node ↔
      Fits limits (documentBytes declared root attributes forest) forest.normalized
        ∧ node = forest.normalized.tree root := by
  have hevents : (quick.read (documentBytes declared root attributes forest)).1.foldlM
      (parseEvent quick limits) ParseState.initial
      = runs quick limits { ParseState.initial with sawDeclaration := declared }
          (documentPieces root attributes forest) := by
    rw [read_documentBytes hquick h]
    cases declared <;> rfl
  have hend : (quick.read (documentBytes declared root attributes forest)).2 = none := by
    rw [read_documentBytes hquick h]
  simp only [parseTree, hevents, hend, bind_eq_ok, ensure_eq_ok, okOr_eq_ok,
    runs_documentPieces hquick]
  constructor
  · rintro ⟨_, hbytes, _, ⟨⟨hlevels, hnodes, htext⟩, rfl⟩, _, _, hroot⟩
    exact ⟨⟨hbytes, by simpa using hlevels, by simpa using hnodes, htext⟩,
      (Option.some.inj hroot).symm⟩
  · rintro ⟨hfits, rfl⟩
    exact ⟨(), hfits.document, _, ⟨⟨by simpa using hfits.levels, by simpa using hfits.nodes,
      hfits.text⟩, rfl⟩, (), rfl, rfl⟩

/-- The parser returns what was written exactly when no value has a carriage return and the
    document keeps to the limits. -/
theorem parseTree_documentBytes_iff (hquick : quick.Standard)
    (h : LegalDocument root attributes forest) (declared : Bool) :
    parseTree quick (documentBytes declared root attributes forest) limits
        = .ok (forest.tree root) ↔ (∀ value ∈ forest.values, '\r' ∉ value)
        ∧ Fits limits (documentBytes declared root attributes forest) forest := by
  rw [parseTree_documentBytes hquick h]
  constructor
  · rintro ⟨hfits, htree⟩
    have hvalues := Forest.normalized_nodes_eq.mp (Node.mk.inj htree).2.2.symm
    rw [Forest.normalized_eq_self hvalues] at hfits
    exact ⟨hvalues, hfits⟩
  · rintro ⟨hvalues, hfits⟩
    rw [Forest.normalized_eq_self hvalues]
    exact ⟨hfits, rfl⟩

end Documents

/-! ## 8. What the writer writes -/

namespace XmlWriter

theorem bytes_escaped (writer : XmlWriter) (value : Text) :
    (writer.escaped value).bytes = writer.bytes ++ markupBytes (valuePieces value) := by
  rw [markupBytes_valuePieces]
  induction value generalizing writer with
  | nil => exact (List.append_nil _).symm
  | cons c value ih =>
    change ((writer.push (escapedChar c)).escaped value).bytes = _
    rw [ih, push, List.append_assoc, List.flatMap_cons]

theorem bytes_start (writer : XmlWriter) (name : Text) :
    (writer.start name).bytes = writer.bytes ++ (Markup.start (encodeUtf8 name) []).bytes := by
  simp [start, push, Markup.bytes]

theorem bytes_close (writer : XmlWriter) (name : Text) :
    (writer.close name).bytes = writer.bytes ++ (Markup.close (encodeUtf8 name)).bytes := by
  have hslash : ascii "</" = [60, 47] := by decide
  simp [close, push, Markup.bytes, hslash]

theorem bytes_forest (writer : XmlWriter) (forest : Forest) :
    (writer.forest forest).bytes = writer.bytes ++ markupBytes forest.pieces := by
  induction forest generalizing writer with
  | nil => exact (List.append_nil _).symm
  | element name value rest ih =>
    rw [XmlWriter.forest, ih, element, bytes_close, bytes_escaped, bytes_start]
    simp [Forest.pieces, markupBytes]
  | group name inner rest ihinner ihrest =>
    rw [XmlWriter.forest, ihrest, bytes_close, ihinner, bytes_start]
    simp [Forest.pieces, markupBytes]

theorem finish_document (root : Text) (forest : Forest) :
    ((document root).forest forest).finish root = documentBytes true root [] forest := by
  have hdeclaration : ascii "<?xml version=\"1.0\" encoding=\"UTF-8\"?>"
      = Markup.declaration.bytes := by
    decide
  rw [finish, bytes_close, bytes_forest, document, bytes_start, hdeclaration]
  simp [documentBytes, documentPieces, markupBytes]

/-- The attribute that `document_ns` writes. -/
def namespaceAttribute : Bytes × Bytes := (ascii "xmlns", encodeUtf8 s3Xmlns)

theorem finish_documentNs (root : Text) (forest : Forest) :
    ((documentNs root).forest forest).finish root
      = documentBytes true root [namespaceAttribute] forest := by
  have hdeclaration : ascii "<?xml version=\"1.0\" encoding=\"UTF-8\"?>"
      = Markup.declaration.bytes := by
    decide
  have hvalue : s3Xmlns.flatMap escapedChar = encodeUtf8 s3Xmlns := by decide +kernel
  have hopens : ascii " xmlns=\"" = 32 :: ascii "xmlns" ++ [61, 34] := by decide
  have hcloses : ascii "\">" = [34, 62] := by decide
  rw [finish, bytes_close, bytes_forest, documentNs]
  simp only [push, bytes_escaped, markupBytes_valuePieces, hdeclaration, hvalue, hopens, hcloses]
  simp [documentBytes, documentPieces, markupBytes, Markup.bytes, attributeBytes,
    namespaceAttribute]

end XmlWriter

/-! ## 9. A reader -/

/-- A reader of XML 1.0 for documents of nested elements. -/
def scanningReader : QuickXml where
  read bytes := ((scanMarkup bytes.length bytes).map markupEvent, none)
  unescape text := .ok text
  resolveXmlEntity name :=
    (['&', '<', '>', '"', Char.ofNat 39].find? (fun c => entityName c = some name)).map ([·])

theorem markupEvent_plain (piece : Markup) : markupEvent piece.plain = markupEvent piece := by
  cases piece <;> rfl

theorem scanningReader_read {pieces : List Markup} (hlegal : ∀ piece ∈ pieces, piece.Legal)
    (hseparated : Separated pieces) :
    scanningReader.read (markupBytes pieces) = (pieces.map markupEvent, none) := by
  change ((scanMarkup _ _).map markupEvent, none) = _
  rw [scanMarkup_length hlegal hseparated, List.map_map]
  congr 1
  exact List.map_congr_left (fun piece _ => markupEvent_plain piece)

theorem scanningReader_standard : scanningReader.Standard where
  pieces pieces h := scanningReader_read h.legal_separated.1 h.legal_separated.2
  declared pieces h := by
    have hlegal : ∀ piece ∈ Markup.declaration :: pieces, piece.Legal :=
      List.forall_mem_cons.mpr ⟨trivial, h.legal_separated.1⟩
    have hseparated : Separated (.declaration :: pieces) :=
      ⟨by simp [Markup.isText], h.legal_separated.2⟩
    exact scanningReader_read hlegal hseparated
  unescaped text _ := rfl
  entity c name h := by
    unfold entityName at h
    split_ifs at h with h1 h2 h3 h4 h5
    · rw [h1, ← Option.some.inj h]
      decide +kernel
    · rw [h2, ← Option.some.inj h]
      decide +kernel
    · rw [h3, ← Option.some.inj h]
      decide +kernel
    · rw [h4, ← Option.some.inj h]
      decide +kernel
    · have hc : c = Char.ofNat 39 := Char.ofNat_toNat c ▸ congrArg Char.ofNat h5
      rw [hc, ← Option.some.inj h]
      decide +kernel

end Pgs3.Protocol
