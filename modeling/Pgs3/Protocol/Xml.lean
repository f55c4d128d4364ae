import Pgs3.Foundation.Markup
import Pgs3.Protocol.SigV4

/-!
# XML requests and responses

Translation of `protocol/xml.rs`: the bounded parser of request bodies, the request to
delete objects that is read with it, and the writer of responses.  The reader itself is the
`quick_xml` crate, which is a parameter: the events that it finds in a document, each with the
results of the accessors that the parser calls on it, up to the end of the document or the
first error.  `usize` has 64 bits.
-/

namespace Pgs3.Protocol

open Pgs3 Foundation

/-! ## 1. Types -/

structure XmlLimits where
  maxDocumentBytes : Nat := 1024 * 1024
  maxDepth : Nat := 16
  maxNodes : Nat := 32000
  maxTextBytes : Nat := 1024 * 1024
  maxDeleteObjects : Nat := 1000

inductive XmlError where
  | documentTooLarge
  | tooDeep
  | tooManyNodes
  | textTooLarge
  | malformed (error : String)
  | forbiddenConstruct
  | missingRoot
  | multipleRoots
  | unexpectedRoot (expected : String) (actual : Bytes)
  | unexpectedElement (element : Bytes)
  | missingField (field : String)
  | duplicateField (field : String)
  | invalidField (field : String)
  | tooManyItems
deriving DecidableEq, Repr

structure DeleteObjectIdentifier where
  key : Text
  versionId : Option Text
deriving DecidableEq, Repr

structure DeleteObjectsRequest where
  objects : List DeleteObjectIdentifier
  quiet : Bool
deriving DecidableEq, Repr

structure Node where
  name : Bytes
  text : Text
  children : List Node

/-- `quick_xml::events::Event`.  `Empty` does not occur, since empty elements are expanded, and
    `Eof` is the end of the list. -/
inductive Event where
  /-- The local name or why it is not UTF-8, and the error of the first attribute that does not
      parse. -/
  | start (localName : Except String Bytes) (attributes : Option String)
  | close
  /-- `xml10_content`. -/
  | text (content : Except String Text)
  | cData (content : Except String Text)
  | comment
  | decl
  /-- `xml10_content` and `resolve_char_ref`. -/
  | generalRef (content : Except String Text) (charRef : Except String (Option Char))
  | pi
  | docType

/-- The parts of `quick_xml` that are used. -/
structure QuickXml where
  /-- `Reader::read_event`, with `check_end_names` and `expand_empty_elements`. -/
  read : Bytes → List Event × Option String
  unescape : Text → Except String Text
  resolveXmlEntity : Text → Option Text

/-! ## 2. The parser -/

def isWhitespace (c : Char) : Bool :=
  (9 ≤ c.toNat && c.toNat ≤ 13) || c.toNat = 0x20 || c.toNat = 0x85 || c.toNat = 0xA0
    || c.toNat = 0x1680 || (0x2000 ≤ c.toNat && c.toNat ≤ 0x200A) || c.toNat = 0x2028
    || c.toNat = 0x2029 || c.toNat = 0x202F || c.toNat = 0x205F || c.toNat = 0x3000

def trimText (text : Text) : Text :=
  ((text.dropWhile isWhitespace).reverse.dropWhile isWhitespace).reverse

/-- The variables of `parse_tree`.  The innermost open element stands first. -/
structure ParseState where
  stack : List Node
  root : Option Node
  nodes : Nat
  textBytes : Nat
  sawDeclaration : Bool

def ParseState.initial : ParseState :=
  { stack := [], root := none, nodes := 0, textBytes := 0, sawDeclaration := false }

/-- `map_err(|error| XmlError::Malformed(error.to_string()))`. -/
def orMalformed {α : Type} (result : Except String α) : Except XmlError α :=
  result.mapError .malformed

def appendText (limits : XmlLimits) (state : ParseState) (text : Text) :
    Except XmlError ParseState := do
  let textBytes := state.textBytes + octetLength text
  ensure (textBytes < 2 ^ 64) .textTooLarge
  ensure (textBytes ≤ limits.maxTextBytes) .textTooLarge
  match state.stack with
  | node :: outer =>
      return { state with
        textBytes := textBytes
        stack := { node with text := node.text ++ text } :: outer }
  | [] =>
      ensure (trimText text = [])
        (if state.root.isSome then .multipleRoots else .malformed "text outside root element")
      return { state with textBytes := textBytes }

/-- One turn of the loop of `parse_tree`. -/
def parseEvent (quick : QuickXml) (limits : XmlLimits) (state : ParseState) :
    Event → Except XmlError ParseState
  | .start localName attributes => do
      ensure (state.stack.length < limits.maxDepth) .tooDeep
      let nodes := state.nodes + 1
      ensure (nodes < 2 ^ 64) .tooManyNodes
      ensure (nodes ≤ limits.maxNodes) .tooManyNodes
      -- Forces the attributes to be parsed, although no schema consumes them.
      match attributes with
      | some error => throw (.malformed error)
      | none =>
          let name ← orMalformed localName
          return { state with
            nodes := nodes
            stack := { name := name, text := [], children := [] } :: state.stack }
  | .close =>
      match state.stack with
      | [] => throw (.malformed "unmatched end tag")
      | node :: parent :: outer =>
          return { state with
            stack := { parent with children := parent.children ++ [node] } :: outer }
      | [node] => do
          ensure (state.root.isNone) .multipleRoots
          return { state with stack := [], root := some node }
  | .text content => do
      let decoded ← orMalformed content
      let decoded ← orMalformed (quick.unescape decoded)
      appendText limits state decoded
  | .cData content => do
      let decoded ← orMalformed content
      appendText limits state decoded
  | .comment => return state
  | .decl => do
      ensure (¬ state.sawDeclaration ∧ state.root.isNone ∧ state.stack.isEmpty)
        .forbiddenConstruct
      return { state with sawDeclaration := true }
  | .generalRef content charRef => do
      let decoded ← orMalformed content
      match ← orMalformed charRef with
      | some character => appendText limits state [character]
      | none =>
          let resolved ← okOr .forbiddenConstruct (quick.resolveXmlEntity decoded)
          appendText limits state resolved
  | .pi => throw .forbiddenConstruct
  | .docType => throw .forbiddenConstruct

def parseTree (quick : QuickXml) (input : Bytes) (limits : XmlLimits) :
    Except XmlError Node := do
  ensure (input.length ≤ limits.maxDocumentBytes) .documentTooLarge
  let state ← (quick.read input).1.foldlM (parseEvent quick limits) ParseState.initial
  match (quick.read input).2 with
  | some error => throw (.malformed error)
  | none =>
      ensure (state.stack.isEmpty) (.malformed "unclosed element")
      okOr .missingRoot state.root

/-! ## 3. A request -/

def expectRoot (root : Node) (expected : String) : Except XmlError Unit :=
  ensure (root.name = ascii expected) (.unexpectedRoot expected root.name)

def Node.childrenNamed (node : Node) (name : String) : List Node :=
  node.children.filter fun child => child.name = ascii name

def Node.requiredOnce (node : Node) (name : String) : Except XmlError Node :=
  match node.childrenNamed name with
  | [] => throw (.missingField name)
  | [value] => do
      ensure (value.children.isEmpty) (.invalidField name)
      return value
  | _ => throw (.duplicateField name)

def Node.optionalTextUntrimmed (node : Node) (name : String) : Except XmlError (Option Text) :=
  match node.childrenNamed name with
  | [] => return none
  | [value] => do
      ensure (value.children.isEmpty) (.invalidField name)
      return some value.text
  | _ => throw (.duplicateField name)

def Node.rejectUnknownChildren (node : Node) (allowed : List String) : Except XmlError Unit :=
  match node.children.find? fun child => child.name ∉ allowed.map ascii with
  | some child => throw (.unexpectedElement child.name)
  | none => return ()

/-- The variables of the loop of `parse_delete_objects`. -/
structure DeleteState where
  objects : List DeleteObjectIdentifier
  quiet : Bool
  sawQuiet : Bool

/-- `eq_ignore_ascii_case` on a text, with a word in lower case. -/
def equalsWord (text : Text) (word : String) : Bool :=
  eqIgnoreAsciiCase (encodeUtf8 text) (ascii word)

def deleteChild (limits : XmlLimits) (state : DeleteState) (child : Node) :
    Except XmlError DeleteState :=
  if child.name = ascii "Object" then do
    ensure (state.objects.length < limits.maxDeleteObjects) .tooManyItems
    child.rejectUnknownChildren ["Key", "VersionId"]
    let keyNode ← child.requiredOnce "Key"
    ensure (keyNode.text ≠ []) (.invalidField "Key")
    -- Spaces are legal in the keys of objects and must not be trimmed.
    let versionId ← child.optionalTextUntrimmed "VersionId"
    return { state with objects := state.objects ++ [⟨keyNode.text, versionId⟩] }
  else if child.name = ascii "Quiet" then do
    ensure (¬ state.sawQuiet) (.duplicateField "Quiet")
    let value := trimText child.text
    if equalsWord value "true" then return { state with sawQuiet := true, quiet := true }
    else if equalsWord value "false" then return { state with sawQuiet := true, quiet := false }
    else throw (.invalidField "Quiet")
  else throw (.unexpectedElement child.name)

def parseDeleteObjects (quick : QuickXml) (input : Bytes) (limits : XmlLimits) :
    Except XmlError DeleteObjectsRequest := do
  let root ← parseTree quick input limits
  expectRoot root "Delete"
  let state ← root.children.foldlM (deleteChild limits)
    { objects := [], quiet := false, sawQuiet := false }
  ensure (state.objects ≠ []) (.missingField "Object")
  return { objects := state.objects, quiet := state.quiet }

/-! ## 4. The writer -/

def s3Xmlns : Text := "http://s3.amazonaws.com/doc/2006-03-01/".toList

structure XmlWriter where
  bytes : Bytes

def XmlWriter.push (writer : XmlWriter) (bytes : Bytes) : XmlWriter :=
  { bytes := writer.bytes ++ bytes }

def XmlWriter.start (writer : XmlWriter) (name : Text) : XmlWriter :=
  ((writer.push [60]).push (encodeUtf8 name)).push [62]

/-- `end`. -/
def XmlWriter.close (writer : XmlWriter) (name : Text) : XmlWriter :=
  ((writer.push (ascii "</")).push (encodeUtf8 name)).push [62]

def escapedChar (c : Char) : Bytes :=
  if c = '&' then ascii "&amp;"
  else if c = '<' then ascii "&lt;"
  else if c = '>' then ascii "&gt;"
  else if c = '"' then ascii "&quot;"
  else if c.toNat = 39 then ascii "&apos;"
  else String.utf8EncodeChar c

def XmlWriter.escaped (writer : XmlWriter) (value : Text) : XmlWriter :=
  value.foldl (fun writer c => writer.push (escapedChar c)) writer

def XmlWriter.element (writer : XmlWriter) (name value : Text) : XmlWriter :=
  ((writer.start name).escaped value).close name

def XmlWriter.document (root : Text) : XmlWriter :=
  XmlWriter.start { bytes := ascii "<?xml version=\"1.0\" encoding=\"UTF-8\"?>" } root

def XmlWriter.documentNs (root : Text) : XmlWriter :=
  let writer : XmlWriter := { bytes := ascii "<?xml version=\"1.0\" encoding=\"UTF-8\"?>" }
  (((writer.push [60]).push (encodeUtf8 root)).push (ascii " xmlns=\"")).escaped s3Xmlns
    |>.push (ascii "\">")

def XmlWriter.finish (writer : XmlWriter) (root : Text) : Bytes := (writer.close root).bytes

end Pgs3.Protocol
