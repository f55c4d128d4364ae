import Pgs3.Protocol.XmlRoundTrip

/-!
# The text of listings

Translation of the writing functions of `s3/xml.rs`, which build the listings as one `String`
with an escaper of their own.  Their documents have the same bytes as those of the other
writer, so what the parser makes of them is settled for both at once, and with it whether a key
taken from a listing names the same object in a request to delete it.
-/

namespace Pgs3.S3.ListingXml

open Pgs3 Foundation Protocol

/-! ## 1. The writer -/

def escapeChar (c : Char) : Text :=
  if c = '&' then "&amp;".toList
  else if c = '<' then "&lt;".toList
  else if c = '>' then "&gt;".toList
  else if c = '"' then "&quot;".toList
  else if c.toNat = 39 then "&apos;".toList
  else [c]

def escape (out value : Text) : Text := value.foldl (fun out c => out ++ escapeChar c) out

def openTag (out name : Text) : Text := out ++ ['<'] ++ name ++ ['>']

def closeTag (out name : Text) : Text := out ++ "</".toList ++ name ++ ['>']

def element (out name value : Text) : Text := closeTag (escape (openTag out name) value) name

def document (root : Text) : Text :=
  "<?xml version=\"1.0\" encoding=\"UTF-8\"?><".toList ++ root ++ " xmlns=\"".toList ++ s3Xmlns
    ++ "\">".toList

def close (out root : Text) : Bytes := encodeUtf8 (closeTag out root)

/-- The calls between `document` and `close`. -/
def pushForest (out : Text) : Forest → Text
  | .nil => out
  | .element name value rest => pushForest (element out name value) rest
  | .group name inner rest => pushForest (closeTag (pushForest (openTag out name) inner) name) rest

def listing (root : Text) (forest : Forest) : Bytes := close (pushForest (document root) forest) root

/-! ## 2. The same bytes -/

theorem encodeUtf8_escapeChar (c : Char) : encodeUtf8 (escapeChar c) = escapedChar c := by
  unfold escapeChar escapedChar
  split_ifs
  · decide
  · decide
  · decide
  · decide
  · decide
  · exact List.append_nil _

theorem encodeUtf8_escape (out value : Text) :
    encodeUtf8 (escape out value) = encodeUtf8 out ++ markupBytes (valuePieces value) := by
  rw [markupBytes_valuePieces]
  induction value generalizing out with
  | nil => exact (List.append_nil _).symm
  | cons c value ih =>
    change encodeUtf8 (escape (out ++ escapeChar c) value) = _
    rw [ih, encodeUtf8_append, encodeUtf8_escapeChar, List.append_assoc, List.flatMap_cons]

theorem encodeUtf8_openTag (out name : Text) : encodeUtf8 (openTag out name)
      = encodeUtf8 out ++ (Markup.start (encodeUtf8 name) []).bytes := by
  have hless : encodeUtf8 ['<'] = [60] := by decide
  have hgreater : encodeUtf8 ['>'] = [62] := by decide
  simp only [openTag, encodeUtf8_append, hless, hgreater, Markup.bytes]
  simp

theorem encodeUtf8_closeTag (out name : Text) : encodeUtf8 (closeTag out name)
      = encodeUtf8 out ++ (Markup.close (encodeUtf8 name)).bytes := by
  have hless : encodeUtf8 "</".toList = [60, 47] := by decide
  have hgreater : encodeUtf8 ['>'] = [62] := by decide
  simp only [closeTag, encodeUtf8_append, hless, hgreater, Markup.bytes]
  simp

theorem encodeUtf8_pushForest (out : Text) (forest : Forest) :
    encodeUtf8 (pushForest out forest) = encodeUtf8 out ++ markupBytes forest.pieces := by
  induction forest generalizing out with
  | nil => exact (List.append_nil _).symm
  | element name value rest ih =>
    rw [pushForest, ih, element, encodeUtf8_closeTag, encodeUtf8_escape, encodeUtf8_openTag]
    simp [Forest.pieces, markupBytes]
  | group name inner rest ihinner ihrest =>
    rw [pushForest, ihrest, encodeUtf8_closeTag, ihinner, encodeUtf8_openTag]
    simp [Forest.pieces, markupBytes]

theorem encodeUtf8_head {opens name closes : Text} {declaration label : Bytes}
    (hopens : encodeUtf8 opens = declaration ++ [60])
    (hname : encodeUtf8 name = 32 :: label ++ [61, 34])
    (hcloses : encodeUtf8 closes = [34, 62]) (root value : Text) :
    encodeUtf8 (opens ++ root ++ name ++ value ++ closes) = declaration
      ++ (Markup.start (encodeUtf8 root) [(label, encodeUtf8 value)]).bytes := by
  simp only [encodeUtf8_append, hopens, hname, hcloses, Markup.bytes]
  simp [attributeBytes]

theorem encodeUtf8_document (root : Text) : encodeUtf8 (document root) = Markup.declaration.bytes
      ++ (Markup.start (encodeUtf8 root) [XmlWriter.namespaceAttribute]).bytes :=
  encodeUtf8_head (by decide +kernel) (by decide +kernel) (by decide +kernel) root s3Xmlns

theorem listing_eq (root : Text) (forest : Forest) : listing root forest
      = documentBytes true root [XmlWriter.namespaceAttribute] forest := by
  rw [listing, close, encodeUtf8_closeTag, encodeUtf8_pushForest, encodeUtf8_document]
  simp [documentBytes, documentPieces, markupBytes]

theorem legal_namespaceAttribute : ([XmlWriter.namespaceAttribute].map Prod.fst).Nodup
    ∧ ∀ pair ∈ [XmlWriter.namespaceAttribute], IsName pair.1 ∧ PlainValue pair.2 := by
  refine ⟨List.nodup_singleton _, fun pair hpair => ?_⟩
  rw [List.mem_singleton.mp hpair]
  have hname : (Protocol.ascii "xmlns").head?.any isAsciiLetter = true
      ∧ ∀ b ∈ Protocol.ascii "xmlns", isNameByte b = true := by
    decide +kernel
  have hvalue : ∀ b ∈ encodeUtf8 s3Xmlns, b ∉ ([34, 38, 60, 62] : List UInt8) := by
    decide +kernel
  exact ⟨⟨hname.1, hname.2⟩, hvalue⟩

/-! ## 3. A value that a client reads -/

/-- `url_encode`; `char::from` makes a character of each byte. -/
def urlEncode (value : Text) : Text :=
  (awsEncode (encodeUtf8 value) true).map fun b => Char.ofNat b.toNat

/-- What `encoded_element` writes as the value. -/
def encodedValue (url : Bool) (value : Text) : Text := if url then urlEncode value else value

/-- What a client makes of the text of an element, decoding it if it asked for
    `encoding-type=url`. -/
def clientValue (url : Bool) (text : Text) : Text :=
  if url then ((percentDecode (encodeUtf8 text)).bind decodeUtf8).getD [] else text

/-- What a client receives for a value: on the way the ends of lines are normalized. -/
def received (url : Bool) (value : Text) : Text :=
  clientValue url (normalizeEol (encodedValue url value))

theorem encodeUtf8_ofByte {b : UInt8} (h : isUnreserved b = true ∨ b = 37) :
    String.utf8EncodeChar (Char.ofNat b.toNat) = [b] ∧ Char.ofNat b.toNat ≠ '\r' := by
  have hall : ∀ b : UInt8, decide ((isUnreserved b = true ∨ b = 37) →
      String.utf8EncodeChar (Char.ofNat b.toNat) = [b] ∧ Char.ofNat b.toNat ≠ '\r') = true :=
    forall_byte (by decide +kernel)
  exact of_decide_eq_true (hall b) h

theorem encodeUtf8_map_ofByte {bytes : Bytes} (h : ∀ b ∈ bytes, isUnreserved b = true ∨ b = 37) :
    encodeUtf8 (bytes.map fun b => Char.ofNat b.toNat) = bytes := by
  induction bytes with
  | nil => rfl
  | cons b bytes ih =>
    obtain ⟨hb, hbytes⟩ := List.forall_mem_cons.mp h
    rw [List.map_cons, encodeUtf8, List.flatMap_cons, (encodeUtf8_ofByte hb).1, ← encodeUtf8,
      ih hbytes]
    rfl

/-- **With `encoding-type=url` a client receives the value that was sent.** -/
theorem received_url (value : Text) : received true value = value := by
  have hplain : '\r' ∉ urlEncode value := by
    intro hmem
    obtain ⟨b, hb, hreturn⟩ := List.mem_map.mp hmem
    exact (encodeUtf8_ofByte (mem_awsEncode hb)).2 hreturn
  have hbytes : encodeUtf8 (urlEncode value) = awsEncode (encodeUtf8 value) true :=
    encodeUtf8_map_ofByte fun _ => mem_awsEncode
  simp only [received, encodedValue, clientValue, if_true, normalizeEol_eq_self.mpr hplain, hbytes,
    percentDecode_awsEncode]
  exact congrArg (Option.getD · []) (decodeUtf8_encodeUtf8 value)

theorem received_eq_self {url : Bool} {value : Text} (h : url = true ∨ '\r' ∉ value) :
    received url value = value := by
  cases url with
  | true => exact received_url value
  | false => exact normalizeEol_eq_self.mpr (h.resolve_left (by simp))

theorem mem_nodes_normalized {forest : Forest} {name : Bytes} {value : Text}
    (h : ⟨name, value, []⟩ ∈ forest.nodes) :
    ⟨name, normalizeEol value, []⟩ ∈ forest.normalized.nodes := by
  induction forest with
  | nil => exact absurd h List.not_mem_nil
  | element name' value' rest ih =>
    rcases List.mem_cons.mp h with heq | h
    · cases heq
      exact List.mem_cons_self
    · exact List.mem_cons_of_mem _ (ih h)
  | group name' inner rest _ ih =>
    rcases List.mem_cons.mp h with heq | h
    · cases inner <;> cases heq
      exact List.mem_cons_self
    · exact List.mem_cons_of_mem _ (ih h)

/-- **The writer and a reader of XML**: in a listing with the element that `encoded_element`
    writes for a value, a client finds what `received` says. -/
theorem received_of_listing {quick : QuickXml} (hquick : quick.Standard) {limits : XmlLimits}
    {root name value : Text} {forest : Forest} {url : Bool} (hroot : IsName (encodeUtf8 root))
    (hforest : forest.Legal) (hmem : ⟨encodeUtf8 name, encodedValue url value, []⟩ ∈ forest.nodes)
    {listed : Node} (hlisted : parseTree quick (listing root forest) limits = .ok listed) :
    ∃ node ∈ listed.children, node.name = encodeUtf8 name
      ∧ clientValue url node.text = received url value := by
  rw [listing_eq, parseTree_documentBytes hquick ⟨hroot, legal_namespaceAttribute, hforest⟩]
    at hlisted
  rw [hlisted.2]
  exact ⟨_, mem_nodes_normalized hmem, rfl, rfl⟩

/-! ## 4. A key in a request to delete -/

/-- The request to delete one object. -/
def deleteForest (key : Text) : Forest :=
  .group "Object".toList (.element "Key".toList key .nil) .nil

def deleteBody (key : Text) : Bytes :=
  ((XmlWriter.document "Delete".toList).forest (deleteForest key)).finish "Delete".toList

/-- A listing that begins with the record of this key. -/
def keyForest (key : Text) (details others : Forest) : Forest :=
  .group "Contents".toList (.element "Key".toList key details) others

/-- The key of the first record of a listing that was read. -/
def firstKey (tree : Node) : Text :=
  ((tree.children.head?.bind (·.children.head?)).map (·.text)).getD []

theorem isName_words : ∀ word ∈ ["Delete", "Object", "Key", "Contents", "ListBucketResult"],
    IsName (encodeUtf8 word.toList) := by
  have hall : ∀ word ∈ ["Delete", "Object", "Key", "Contents", "ListBucketResult"],
      (encodeUtf8 word.toList).head?.any isAsciiLetter = true
        ∧ ∀ b ∈ encodeUtf8 word.toList, isNameByte b = true := by
    decide +kernel
  intro word hword
  exact ⟨(hall word hword).1, (hall word hword).2⟩

theorem legal_deleteForest {key : Text} (hkey : ∀ c ∈ key, isXmlChar c = true) :
    LegalDocument "Delete".toList [] (deleteForest key) := by
  refine ⟨isName_words _ (by simp), by simp, ?_, ?_⟩
  · intro name hname
    simp only [deleteForest, Forest.names, List.append_nil, List.mem_cons, List.not_mem_nil,
      or_false] at hname
    rcases hname with rfl | rfl
    · exact isName_words "Object" (by simp)
    · exact isName_words "Key" (by simp)
  · intro value hvalue
    simp only [deleteForest, Forest.values, List.append_nil, List.mem_singleton] at hvalue
    rw [hvalue]
    exact hkey

theorem deleteChild_object {limits : XmlLimits} {key : Text} {state : DeleteState} :
    deleteChild limits { objects := [], quiet := false, sawQuiet := false }
        ⟨Protocol.ascii "Object", [], [⟨Protocol.ascii "Key", key, []⟩]⟩ = .ok state ↔
      0 < limits.maxDeleteObjects ∧ key ≠ []
        ∧ state = { objects := [⟨key, none⟩], quiet := false, sawQuiet := false } := by
  have hallowed : ¬ (Protocol.ascii "Key" ∉ ["Key", "VersionId"].map Protocol.ascii) := by decide
  have hversion : ¬ Protocol.ascii "Key" = Protocol.ascii "VersionId" := by decide
  simp only [deleteChild, if_pos, Node.rejectUnknownChildren, Node.requiredOnce,
    Node.optionalTextUntrimmed, Node.childrenNamed, List.find?_cons, List.find?_nil,
    decide_false, List.filter_cons, List.filter_nil, hallowed, hversion, decide_true, if_false,
    Bool.false_eq_true, List.isEmpty_nil, bind_eq_ok, ensure_eq_ok, pure_eq_ok]
  constructor
  · rintro ⟨_, hcount, _, _, _, ⟨_, _, rfl⟩, _, hkey, _, rfl, rfl⟩
    exact ⟨hcount, hkey, rfl⟩
  · rintro ⟨hcount, hkey, rfl⟩
    exact ⟨(), hcount, (), trivial, _, ⟨(), trivial, rfl⟩, (), hkey, none, rfl, rfl⟩

theorem parseDeleteObjects_deleteBody {quick : QuickXml} (hquick : quick.Standard)
    {limits : XmlLimits} {key : Text} (hkey : ∀ c ∈ key, isXmlChar c = true)
    {request : DeleteObjectsRequest} :
    parseDeleteObjects quick (deleteBody key) limits = .ok request ↔
      Fits limits (deleteBody key) (deleteForest (normalizeEol key))
        ∧ 0 < limits.maxDeleteObjects ∧ normalizeEol key ≠ []
        ∧ request = ⟨[⟨normalizeEol key, none⟩], false⟩ := by
  have hparse : ∀ node, parseTree quick (deleteBody key) limits = .ok node ↔
      Fits limits (deleteBody key) (deleteForest (normalizeEol key))
        ∧ node = ⟨Protocol.ascii "Delete", [], [⟨Protocol.ascii "Object", [],
            [⟨Protocol.ascii "Key", normalizeEol key, []⟩]⟩]⟩ := by
    intro node
    have hdelete : encodeUtf8 "Delete".toList = Protocol.ascii "Delete" := by decide
    have hobject : encodeUtf8 "Object".toList = Protocol.ascii "Object" := by decide
    have hname : encodeUtf8 "Key".toList = Protocol.ascii "Key" := by decide
    rw [← hdelete, ← hobject, ← hname, deleteBody, XmlWriter.finish_document]
    exact parseTree_documentBytes hquick (legal_deleteForest hkey) true
  simp only [parseDeleteObjects, bind_eq_ok, hparse, expectRoot, ensure_eq_ok, pure_eq_ok]
  constructor
  · rintro ⟨_, ⟨hfits, rfl⟩, _, _, state, hstate, _, _, rfl⟩
    simp only [List.foldlM_cons, List.foldlM_nil, bind_pure] at hstate
    rcases deleteChild_object.mp hstate with ⟨hcount, hne, rfl⟩
    exact ⟨hfits, hcount, hne, rfl⟩
  · rintro ⟨hfits, hcount, hne, rfl⟩
    let read : DeleteState :=
      { objects := [⟨normalizeEol key, none⟩], quiet := false, sawQuiet := false }
    have hobject := (@deleteChild_object limits (normalizeEol key) read).mpr ⟨hcount, hne, rfl⟩
    refine ⟨_, ⟨hfits, rfl⟩, (), rfl, read, ?_, (), List.cons_ne_nil _ _, rfl⟩
    simp only [List.foldlM_cons, List.foldlM_nil, bind_pure, hobject]

theorem legal_keyForest {key : Text} (hkey : ∀ c ∈ key, isXmlChar c = true) :
    (keyForest key .nil .nil).Legal := by
  constructor
  · intro name hname
    simp only [keyForest, Forest.names, List.append_nil, List.mem_cons, List.not_mem_nil,
      or_false] at hname
    rcases hname with rfl | rfl
    · exact isName_words "Contents" (by simp)
    · exact isName_words "Key" (by simp)
  · intro value hvalue
    simp only [keyForest, Forest.values, List.append_nil, List.mem_singleton] at hvalue
    rw [hvalue]
    exact hkey

theorem firstKey_keyForest (key : Text) (details others : Forest) (root : Text) :
    firstKey ((keyForest key details others).normalized.tree root) = normalizeEol key := rfl

/-- A key taken from a listing that was read names in a request to delete the object it named
    before exactly when it has no carriage return and the request is one that is accepted. -/
theorem parseDeleteObjects_firstKey {quick : QuickXml} (hquick : quick.Standard)
    {limits limits' : XmlLimits} {root key : Text} {details others : Forest}
    (hroot : IsName (encodeUtf8 root)) (h : (keyForest key details others).Legal) {listed : Node}
    (hlisted : parseTree quick (listing root (keyForest key details others)) limits = .ok listed) :
    parseDeleteObjects quick (deleteBody (firstKey listed)) limits' = .ok ⟨[⟨key, none⟩], false⟩ ↔
      '\r' ∉ key ∧ key ≠ [] ∧ 0 < limits'.maxDeleteObjects
        ∧ Fits limits' (deleteBody key) (deleteForest key) := by
  have hlegal : LegalDocument root [XmlWriter.namespaceAttribute] (keyForest key details others) :=
    ⟨hroot, legal_namespaceAttribute, h⟩
  rw [listing_eq, parseTree_documentBytes hquick hlegal] at hlisted
  rw [hlisted.2, firstKey_keyForest]
  have hkey : ∀ c ∈ key, isXmlChar c = true := h.values key List.mem_cons_self
  have hchars : ∀ c ∈ normalizeEol key, isXmlChar c = true := by
    intro c hc
    rcases mem_normalizeEol hc with hc | rfl
    · exact hkey c hc
    · decide
  have htwice : normalizeEol (normalizeEol key) = normalizeEol key :=
    normalizeEol_eq_self.mpr (not_mem_normalizeEol key)
  rw [parseDeleteObjects_deleteBody hquick hchars, htwice]
  constructor
  · rintro ⟨hfits, hcount, hne, hrequest⟩
    have heq : normalizeEol key = key := by
      simpa using hrequest.symm
    rw [heq] at hfits hne
    exact ⟨normalizeEol_eq_self.mp heq, hne, hcount, hfits⟩
  · rintro ⟨hreturn, hne, hcount, hfits⟩
    rw [normalizeEol_eq_self.mpr hreturn]
    exact ⟨hfits, hcount, hne, rfl⟩

/-! ## 5. The round trip -/

section RoundTrip

variable {quick : QuickXml} {root : Text} {forest : Forest}

/-- **Texts and the parser**: for each of the three ways to write a document, the tree that is
    read is the one that was written exactly when no value has a carriage return and the
    document keeps to the limits, and a key of a listing that was read deletes its object
    exactly when the same is true of it. -/
theorem written_reads_back_iff (hquick : quick.Standard) (limits limits' : XmlLimits)
    (hroot : IsName (encodeUtf8 root)) (hforest : forest.Legal) :
    (parseTree quick (((XmlWriter.document root).forest forest).finish root) limits
        = .ok (forest.tree root) ↔ (∀ value ∈ forest.values, '\r' ∉ value)
        ∧ Fits limits (((XmlWriter.document root).forest forest).finish root) forest)
    ∧ (parseTree quick (((XmlWriter.documentNs root).forest forest).finish root) limits
        = .ok (forest.tree root) ↔ (∀ value ∈ forest.values, '\r' ∉ value)
        ∧ Fits limits (((XmlWriter.documentNs root).forest forest).finish root) forest)
    ∧ (parseTree quick (listing root forest) limits = .ok (forest.tree root) ↔
      (∀ value ∈ forest.values, '\r' ∉ value) ∧ Fits limits (listing root forest) forest)
    ∧ ∀ key details others listed, forest = keyForest key details others →
      parseTree quick (listing root forest) limits = .ok listed →
      (parseDeleteObjects quick (deleteBody (firstKey listed)) limits'
          = .ok ⟨[⟨key, none⟩], false⟩ ↔ '\r' ∉ key ∧ key ≠ [] ∧ 0 < limits'.maxDeleteObjects
          ∧ Fits limits' (deleteBody key) (deleteForest key)) := by
  have hplain : LegalDocument root [] forest := ⟨hroot, by simp, hforest⟩
  have hspaced : LegalDocument root [XmlWriter.namespaceAttribute] forest :=
    ⟨hroot, legal_namespaceAttribute, hforest⟩
  rw [XmlWriter.finish_document, XmlWriter.finish_documentNs, listing_eq]
  refine ⟨parseTree_documentBytes_iff hquick hplain true,
    parseTree_documentBytes_iff hquick hspaced true,
    parseTree_documentBytes_iff hquick hspaced true, ?_⟩
  rintro key details others listed rfl hlisted
  rw [← listing_eq] at hlisted
  exact parseDeleteObjects_firstKey hquick hroot hforest hlisted

theorem written_reads_back_iff_ampersand :
    parseTree scanningReader (listing "ListBucketResult".toList
        (keyForest "a&b<c".toList .nil .nil)) {}
      = .ok ((keyForest "a&b<c".toList .nil .nil).tree "ListBucketResult".toList)
    ∧ parseDeleteObjects scanningReader (deleteBody (firstKey
        ((keyForest "a&b<c".toList .nil .nil).tree "ListBucketResult".toList))) {}
      = .ok ⟨[⟨"a&b<c".toList, none⟩], false⟩ := by
  have hkey : "a&b<c".toList.all isXmlChar = true := by decide +kernel
  have hall := written_reads_back_iff scanningReader_standard {} {}
    (isName_words "ListBucketResult" (by simp)) (legal_keyForest (List.all_eq_true.mp hkey))
  have hlisted := hall.2.2.1.mpr ⟨by decide +kernel, by decide +kernel, by decide +kernel,
    by decide +kernel, by decide +kernel⟩
  have hdeleted := (hall.2.2.2 _ _ _ _ rfl hlisted).mpr ⟨by decide +kernel, by decide +kernel,
    by decide +kernel, by decide +kernel, by decide +kernel, by decide +kernel, by decide +kernel⟩
  exact ⟨hlisted, hdeleted⟩

/-- A carriage return, which is a character of XML, comes back as a line feed: neither writer
    has a reference for it. -/
theorem carriage_return_reads_back_as_line_feed : isXmlChar '\r' = true
    ∧ parseTree scanningReader (listing "ListBucketResult".toList (keyForest ['\r'] .nil .nil)) {}
      = .ok ((keyForest ['\n'] .nil .nil).tree "ListBucketResult".toList)
    ∧ parseTree scanningReader (((XmlWriter.document "Delete".toList).forest
        (deleteForest ['\r'])).finish "Delete".toList) {}
      = .ok ((deleteForest ['\n']).tree "Delete".toList)
    ∧ parseDeleteObjects scanningReader (deleteBody ['\r']) {} = .ok ⟨[⟨['\n'], none⟩], false⟩ := by
  have hreturn : isXmlChar '\r' = true := by decide +kernel
  have hkey : ∀ c ∈ ['\r'], isXmlChar c = true := List.forall_mem_singleton.mpr hreturn
  refine ⟨hreturn, ?_, ?_, ?_⟩
  · rw [listing_eq]
    exact (parseTree_documentBytes scanningReader_standard ⟨isName_words "ListBucketResult"
      (by simp), legal_namespaceAttribute, legal_keyForest hkey⟩ true).mpr
      ⟨⟨by decide +kernel, by decide +kernel, by decide +kernel, by decide +kernel⟩, rfl⟩
  · rw [XmlWriter.finish_document]
    exact (parseTree_documentBytes scanningReader_standard (legal_deleteForest hkey) true).mpr
      ⟨⟨by decide +kernel, by decide +kernel, by decide +kernel, by decide +kernel⟩, rfl⟩
  · exact (parseDeleteObjects_deleteBody scanningReader_standard hkey).mpr
      ⟨⟨by decide +kernel, by decide +kernel, by decide +kernel, by decide +kernel⟩,
        by decide +kernel, by decide +kernel, rfl⟩

end RoundTrip

end Pgs3.S3.ListingXml
