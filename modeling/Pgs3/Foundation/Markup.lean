import Mathlib

/-!
# Markup

Documents of nested elements, written in UTF-8: the pieces they consist of, how the pieces are
written, and a scanner that finds them again.  Every piece begins with a byte that no text
holds, so the pieces of a document can be read off its bytes.  A reader also normalizes the
ends of lines, which is the one thing that text does not survive.
-/

namespace Foundation

/-! ## 1. Characters as bytes -/

def encodeUtf8 (text : List Char) : List UInt8 := text.flatMap String.utf8EncodeChar

def decodeUtf8 (bytes : List UInt8) : Option (List Char) :=
  bytes.toByteArray.utf8Decode?.map Array.toList

theorem decodeUtf8_encodeUtf8 (text : List Char) : decodeUtf8 (encodeUtf8 text) = some text := by
  change (text.utf8Encode.utf8Decode?).map Array.toList = some text
  rw [List.utf8Decode?_utf8Encode]
  rfl

@[simp] theorem encodeUtf8_append (text rest : List Char) :
    encodeUtf8 (text ++ rest) = encodeUtf8 text ++ encodeUtf8 rest :=
  List.flatMap_append

variable {text : List Char}

theorem encodeUtf8_ne_nil (h : text ≠ []) : encodeUtf8 text ≠ [] := by
  intro hnil
  rw [encodeUtf8, List.flatMap_eq_nil_iff] at hnil
  cases text with
  | nil => exact h rfl
  | cons c text => exact String.utf8EncodeChar_ne_nil (hnil c List.mem_cons_self)

theorem mem_of_mem_encodeUtf8 {b : UInt8} (hb : b.toNat < 128) (h : b ∈ encodeUtf8 text) :
    ∃ c ∈ text, c.toNat = b.toNat := by
  rcases List.mem_flatMap.mp h with ⟨c, hc, hmem⟩
  refine ⟨c, hc, ?_⟩
  -- The bytes of a longer character all have their high bit.
  have hlong : ∀ n, b = UInt8.ofNat (n + 128) → n < 128 → False := by
    rintro n rfl hn
    rw [UInt8.toNat_ofNat'] at hb
    omega
  simp only [String.utf8EncodeChar] at hmem
  split at hmem
  · rename_i hsmall
    rw [List.mem_singleton.mp hmem, UInt8.toNat_ofNat']
    change c.val.toNat = _
    omega
  split at hmem
  · simp only [List.mem_cons, List.not_mem_nil, or_false] at hmem
    rcases hmem with hmem | hmem
    · exact (hlong (c.val.toNat / 64 % 32 + 64) (by rw [hmem]) (by omega)).elim
    · exact (hlong (c.val.toNat % 64) hmem (by omega)).elim
  split at hmem
  · simp only [List.mem_cons, List.not_mem_nil, or_false] at hmem
    rcases hmem with hmem | hmem | hmem
    · exact (hlong (c.val.toNat / 4096 % 16 + 96) (by rw [hmem]) (by omega)).elim
    · exact (hlong (c.val.toNat / 64 % 64) hmem (by omega)).elim
    · exact (hlong (c.val.toNat % 64) hmem (by omega)).elim
  · simp only [List.mem_cons, List.not_mem_nil, or_false] at hmem
    rcases hmem with hmem | hmem | hmem | hmem
    · exact (hlong (c.val.toNat / 262144 % 8 + 112) (by rw [hmem]) (by omega)).elim
    · exact (hlong (c.val.toNat / 4096 % 64) hmem (by omega)).elim
    · exact (hlong (c.val.toNat / 64 % 64) hmem (by omega)).elim
    · exact (hlong (c.val.toNat % 64) hmem (by omega)).elim

/-! ## 2. Ends of lines -/

/-- A carriage return and the line feed behind it, if there is one, become one line feed. -/
def normalizeEol : List Char → List Char
  | [] => []
  | c :: rest =>
      if c = '\r' then
        if rest.head? = some '\n' then normalizeEol rest else '\n' :: normalizeEol rest
      else c :: normalizeEol rest

theorem normalizeEol_cons_of_ne {c : Char} (h : c ≠ '\r') (rest : List Char) :
    normalizeEol (c :: rest) = c :: normalizeEol rest := by
  rw [normalizeEol, if_neg h]

theorem not_mem_normalizeEol (text : List Char) : '\r' ∉ normalizeEol text := by
  induction text with
  | nil => exact List.not_mem_nil
  | cons c rest ih =>
    rw [normalizeEol]
    split
    · split
      · exact ih
      · simpa using ih
    · rename_i hc
      simpa [eq_comm] using And.intro hc ih

theorem mem_normalizeEol {c : Char} (h : c ∈ normalizeEol text) : c ∈ text ∨ c = '\n' := by
  induction text with
  | nil => cases h
  | cons d rest ih =>
    rw [normalizeEol] at h
    have hrest : c ∈ normalizeEol rest → c ∈ d :: rest ∨ c = '\n' := by
      intro hmem
      rcases ih hmem with hmem | rfl
      · exact .inl (List.mem_cons_of_mem _ hmem)
      · exact .inr rfl
    split at h
    · split at h
      · exact hrest h
      · rcases List.mem_cons.mp h with rfl | h
        · exact .inr rfl
        · exact hrest h
    · rcases List.mem_cons.mp h with rfl | h
      · exact .inl List.mem_cons_self
      · exact hrest h

/-- **Text survives the normalization** exactly when it has no carriage return. -/
theorem normalizeEol_eq_self : normalizeEol text = text ↔ '\r' ∉ text := by
  constructor
  · intro h hmem
    rw [← h] at hmem
    exact not_mem_normalizeEol text hmem
  · intro h
    induction text with
    | nil => rfl
    | cons c rest ih =>
      rw [List.mem_cons, not_or] at h
      rw [normalizeEol_cons_of_ne (Ne.symm h.1), ih h.2]

/-! ## 3. Pieces of a document -/

/-- The inside of `<?xml version="1.0" encoding="UTF-8"?>`. -/
def declarationText : List UInt8 :=
  encodeUtf8 "?xml version=\"1.0\" encoding=\"UTF-8\"?".toList

inductive Markup where
  | declaration
  | start (name : List UInt8) (attributes : List (List UInt8 × List UInt8))
  | close (name : List UInt8)
  | text (chars : List Char)
  | reference (name : List UInt8)

def attributeBytes (pair : List UInt8 × List UInt8) : List UInt8 :=
  32 :: pair.1 ++ [61, 34] ++ pair.2 ++ [34]

def Markup.bytes : Markup → List UInt8
  | .declaration => 60 :: declarationText ++ [62]
  | .start name attributes => 60 :: name ++ attributes.flatMap attributeBytes ++ [62]
  | .close name => 60 :: 47 :: name ++ [62]
  | .text chars => encodeUtf8 chars
  | .reference name => 38 :: name ++ [59]

def markupBytes (pieces : List Markup) : List UInt8 := pieces.flatMap Markup.bytes

def isAsciiLetter (b : UInt8) : Bool := (65 ≤ b && b ≤ 90) || (97 ≤ b && b ≤ 122)

def isNameByte (b : UInt8) : Bool := isAsciiLetter b || (48 ≤ b && b ≤ 57)

/-- Names of elements, attributes and entities: ASCII letters and digits. -/
structure IsName (name : List UInt8) : Prop where
  letter : name.head?.any isAsciiLetter = true
  plain : ∀ b ∈ name, isNameByte b = true

/-- The characters of XML 1.0. -/
def isXmlChar (c : Char) : Bool :=
  c = '\t' || c = '\n' || c = '\r' || (0x20 ≤ c.toNat && c.toNat ≤ 0xD7FF)
    || (0xE000 ≤ c.toNat && c.toNat ≤ 0xFFFD) || 0x10000 ≤ c.toNat

/-- A value of an attribute that needs no escapes. -/
def PlainValue (value : List UInt8) : Prop := ∀ b ∈ value, b ∉ ([34, 38, 60, 62] : List UInt8)

def Markup.Legal : Markup → Prop
  | .declaration => True
  | .start name attributes =>
      IsName name ∧ (attributes.map Prod.fst).Nodup
        ∧ ∀ pair ∈ attributes, IsName pair.1 ∧ PlainValue pair.2
  | .close name => IsName name
  | .text chars => chars ≠ [] ∧ ∀ c ∈ chars, isXmlChar c = true ∧ c ≠ '<' ∧ c ≠ '&'
  | .reference name => IsName name

def Markup.isText : Markup → Bool
  | .text _ => true
  | _ => false

/-- The pieces are what elements with these names that are open still need: every tag is
    closed in turn, and two stretches of text are never next to each other. -/
def Nested : List (List UInt8) → List Markup → Prop
  | opened, [] => opened = []
  | opened, piece :: rest =>
      piece.Legal ∧
        match piece with
        | .declaration => False
        | .start name _ => Nested (name :: opened) rest
        | .close name => ∃ outer, opened = name :: outer ∧ Nested outer rest
        | .text _ => opened ≠ [] ∧ rest.head?.any Markup.isText = false ∧ Nested opened rest
        | .reference _ => opened ≠ [] ∧ Nested opened rest

/-! ## 4. A scanner -/

/-- The attributes are not kept. -/
def Markup.plain : Markup → Markup
  | .start name _ => .start name []
  | piece => piece

def cutAt (stop : UInt8) (bytes : List UInt8) : List UInt8 × List UInt8 :=
  (bytes.takeWhile (· ≠ stop), (bytes.dropWhile (· ≠ stop)).tail)

def isTextByte (b : UInt8) : Bool := b ≠ 60 && b ≠ 38

def tagPiece (inside : List UInt8) : Markup :=
  if inside.head? = some 63 then .declaration
  else if inside.head? = some 47 then .close inside.tail
  else .start (inside.takeWhile (· ≠ 32)) []

/-- The first piece and the bytes behind it. -/
def scanPiece (bytes : List UInt8) : Markup × List UInt8 :=
  if bytes.head? = some 60 then (tagPiece (cutAt 62 bytes.tail).1, (cutAt 62 bytes.tail).2)
  else if bytes.head? = some 38 then
    (.reference (cutAt 59 bytes.tail).1, (cutAt 59 bytes.tail).2)
  else
    (.text ((decodeUtf8 (bytes.takeWhile isTextByte)).getD []), bytes.dropWhile isTextByte)

/-- The pieces of a document, at most as many as the first number says. -/
def scanMarkup : Nat → List UInt8 → List Markup
  | 0, _ => []
  | _ + 1, [] => []
  | count + 1, b :: bytes =>
      (scanPiece (b :: bytes)).1 :: scanMarkup count (scanPiece (b :: bytes)).2

variable {rest : List UInt8}

theorem cutAt_append {stop : UInt8} {bytes : List UInt8} (h : stop ∉ bytes) :
    cutAt stop (bytes ++ stop :: rest) = (bytes, rest) := by
  have hall : ∀ b ∈ bytes, decide (b ≠ stop) = true := by
    intro b hb
    exact decide_eq_true fun heq => h (heq ▸ hb)
  rw [cutAt, List.takeWhile_append_of_pos hall, List.dropWhile_append_of_pos hall]
  simp

theorem IsName.not_mem {name : List UInt8} (h : IsName name) {b : UInt8}
    (hb : isNameByte b = false) : b ∉ name := by
  intro hmem
  rw [h.plain b hmem] at hb
  cases hb

theorem isTextByte_of_legal {chars : List Char} (h : (Markup.text chars).Legal) :
    ∀ b ∈ encodeUtf8 chars, isTextByte b = true := by
  intro b hb
  by_contra hnot
  have hstop : b = 60 ∨ b = 38 := by
    simp only [isTextByte, Bool.and_eq_true, decide_eq_true_eq, not_and_or, not_not] at hnot
    exact hnot
  rcases hstop with rfl | rfl
  · rcases mem_of_mem_encodeUtf8 (by decide) hb with ⟨c, hc, hnum⟩
    exact (h.2 c hc).2.1 (Char.toNat_inj.mp hnum)
  · rcases mem_of_mem_encodeUtf8 (by decide) hb with ⟨c, hc, hnum⟩
    exact (h.2 c hc).2.2 (Char.toNat_inj.mp hnum)

variable {piece : Markup}

theorem head_of_not_isText (h : piece.isText = false) :
    piece.bytes.head?.any isTextByte = false ∧ piece.bytes ≠ [] := by
  cases piece with
  | text chars => cases h
  | declaration => decide
  | start name attributes => exact ⟨rfl, List.cons_ne_nil _ _⟩
  | close name => exact ⟨rfl, List.cons_ne_nil _ _⟩
  | reference name => exact ⟨rfl, List.cons_ne_nil _ _⟩

theorem tagPiece_start {name : List UInt8} {attributes : List (List UInt8 × List UInt8)}
    (h : IsName name) : tagPiece (name ++ attributes.flatMap attributeBytes) = .start name [] := by
  cases name with
  | nil => cases h.letter
  | cons b name =>
    have hletter : isAsciiLetter b = true := h.letter
    have hmark : b ≠ 63 := by
      rintro rfl
      cases hletter
    have hslash : b ≠ 47 := by
      rintro rfl
      cases hletter
    have hblank : ∀ x ∈ b :: name, decide (x ≠ 32) = true := by
      intro x hx
      exact decide_eq_true fun heq => h.not_mem (by decide) (heq ▸ hx)
    rw [tagPiece, if_neg (by simpa using hmark), if_neg (by simpa using hslash),
      List.takeWhile_append_of_pos hblank]
    cases attributes with
    | nil => simp
    | cons pair attributes => simp [attributeBytes]

theorem not_mem_attributeBytes {pair : List UInt8 × List UInt8}
    (h : IsName pair.1 ∧ PlainValue pair.2) : 62 ∉ attributeBytes pair := by
  have hname : 62 ∉ pair.1 := h.1.not_mem (by decide)
  have hvalue : 62 ∉ pair.2 := fun hmem => h.2 62 hmem (by decide)
  simp [attributeBytes, hname, hvalue]

theorem scanPiece_tag {inside : List UInt8} (h : 62 ∉ inside) :
    scanPiece (60 :: inside ++ [62] ++ rest) = (tagPiece inside, rest) := by
  have hcut : cutAt 62 (inside ++ [62] ++ rest) = (inside, rest) := by
    rw [List.append_assoc]
    exact cutAt_append h
  rw [List.cons_append, List.cons_append, scanPiece, List.head?_cons, if_pos rfl,
    List.tail_cons, hcut]

theorem scanPiece_text {bytes : List UInt8} (hne : bytes ≠ [])
    (htext : ∀ b ∈ bytes, isTextByte b = true) (hrest : rest.head?.any isTextByte = false) :
    scanPiece (bytes ++ rest) = (.text ((decodeUtf8 bytes).getD []), rest) := by
  cases bytes with
  | nil => exact absurd rfl hne
  | cons b bytes =>
    have hb := htext b List.mem_cons_self
    have htag : ¬ (b :: (bytes ++ rest)).head? = some 60 := by
      intro h
      rw [Option.some.inj h] at hb
      cases hb
    have hreference : ¬ (b :: (bytes ++ rest)).head? = some 38 := by
      intro h
      rw [Option.some.inj h] at hb
      cases hb
    have hstop : rest.takeWhile isTextByte = [] ∧ rest.dropWhile isTextByte = rest := by
      cases rest with
      | nil => exact ⟨rfl, rfl⟩
      | cons c rest =>
        have hc : isTextByte c = false := hrest
        simp [hc]
    rw [scanPiece, List.cons_append, if_neg htag, if_neg hreference, ← List.cons_append,
      List.takeWhile_append_of_pos htext, List.dropWhile_append_of_pos htext, hstop.1, hstop.2,
      List.append_nil]

/-- The scanner finds the first piece of a document and stops behind it. -/
theorem scanPiece_append (h : piece.Legal)
    (hrest : piece.isText = true → rest.head?.any isTextByte = false) :
    scanPiece (piece.bytes ++ rest) = (piece.plain, rest) := by
  cases piece with
  | declaration => exact scanPiece_tag (by decide)
  | start name attributes =>
    have hinside : 62 ∉ name ++ attributes.flatMap attributeBytes := by
      rw [List.mem_append, not_or]
      refine ⟨h.1.not_mem (by decide), ?_⟩
      intro hmem
      rcases List.mem_flatMap.mp hmem with ⟨pair, hpair, hmem⟩
      exact not_mem_attributeBytes (h.2.2 pair hpair) hmem
    have hscan := @scanPiece_tag rest _ hinside
    rw [tagPiece_start h.1] at hscan
    exact hscan
  | close name =>
    have hinside : 62 ∉ 47 :: name := by
      rw [List.mem_cons, not_or]
      exact ⟨by decide, h.not_mem (by decide)⟩
    exact scanPiece_tag hinside
  | text chars =>
    have hscan := scanPiece_text (encodeUtf8_ne_nil h.1) (isTextByte_of_legal h) (hrest rfl)
    rw [decodeUtf8_encodeUtf8] at hscan
    exact hscan
  | reference name =>
    have hcut : cutAt 59 (name ++ [59] ++ rest) = (name, rest) := by
      rw [List.append_assoc]
      exact cutAt_append (h.not_mem (by decide))
    rw [Markup.bytes, List.cons_append, List.cons_append, scanPiece, List.head?_cons,
      if_neg (by decide), if_pos rfl, List.tail_cons, hcut]
    rfl

theorem Markup.Legal.bytes_ne_nil (h : piece.Legal) : piece.bytes ≠ [] := by
  cases hkind : piece.isText with
  | false => exact (head_of_not_isText hkind).2
  | true =>
    cases piece with
    | text chars => exact encodeUtf8_ne_nil h.1
    | _ => cases hkind

def Separated : List Markup → Prop
  | [] => True
  | piece :: rest =>
      (piece.isText = true → rest.head?.any Markup.isText = false) ∧ Separated rest

variable {pieces : List Markup}

/-- **The scanner finds the pieces of a document.** -/
theorem scanMarkup_markupBytes (hlegal : ∀ piece ∈ pieces, piece.Legal)
    (hseparated : Separated pieces) {count : Nat} (hcount : pieces.length ≤ count) :
    scanMarkup count (markupBytes pieces) = pieces.map Markup.plain := by
  induction pieces generalizing count with
  | nil => cases count <;> rfl
  | cons piece rest ih =>
    have hpiece := hlegal piece List.mem_cons_self
    have hnext : piece.isText = true → (markupBytes rest).head?.any isTextByte = false := by
      intro htext
      have hfirst := hseparated.1 htext
      cases rest with
      | nil => rfl
      | cons next rest =>
        rcases head_of_not_isText hfirst with ⟨hhead, hne⟩
        rw [markupBytes, List.flatMap_cons, List.head?_append_of_ne_nil _ hne]
        exact hhead
    have hne := hpiece.bytes_ne_nil
    cases count with
    | zero => cases hcount
    | succ count =>
      have hrest := ih (fun p hp => hlegal p (List.mem_cons_of_mem _ hp)) hseparated.2
        (Nat.le_of_succ_le_succ hcount)
      have hscan := scanPiece_append hpiece hnext
      rw [markupBytes, List.flatMap_cons]
      change scanMarkup (count + 1) (piece.bytes ++ markupBytes rest) = _
      cases hbytes : piece.bytes with
      | nil => exact absurd hbytes hne
      | cons b bytes =>
        rw [hbytes] at hscan
        rw [List.cons_append] at hscan ⊢
        rw [scanMarkup, hscan, hrest, List.map_cons]

theorem Nested.legal_separated {opened : List (List UInt8)} (h : Nested opened pieces) :
    (∀ piece ∈ pieces, piece.Legal) ∧ Separated pieces := by
  induction pieces generalizing opened with
  | nil => exact ⟨by simp, trivial⟩
  | cons piece rest ih =>
    have hrest : (piece.isText = true → rest.head?.any Markup.isText = false)
        ∧ ∃ opened', Nested opened' rest := by
      cases piece with
      | declaration => exact h.2.elim
      | start name attributes => exact ⟨by simp [Markup.isText], _, h.2⟩
      | close name =>
        rcases h.2 with ⟨outer, _, houter⟩
        exact ⟨by simp [Markup.isText], outer, houter⟩
      | text chars => exact ⟨fun _ => h.2.2.1, _, h.2.2.2⟩
      | reference name => exact ⟨by simp [Markup.isText], _, h.2.2⟩
    rcases hrest with ⟨hnext, opened', hrest⟩
    rcases ih hrest with ⟨hlegal, hseparated⟩
    exact ⟨List.forall_mem_cons.mpr ⟨h.1, hlegal⟩, hnext, hseparated⟩

theorem length_le_markupBytes (h : ∀ piece ∈ pieces, piece.Legal) :
    pieces.length ≤ (markupBytes pieces).length := by
  induction pieces with
  | nil => exact le_rfl
  | cons piece rest ih =>
    have hpiece := List.length_pos_iff.mpr (h piece List.mem_cons_self).bytes_ne_nil
    have hrest := ih (fun p hp => h p (List.mem_cons_of_mem _ hp))
    rw [markupBytes, List.flatMap_cons, List.length_append, List.length_cons]
    rw [markupBytes] at hrest
    omega

/-- A scanner that may find one piece for each byte finds them all. -/
theorem scanMarkup_length (hlegal : ∀ piece ∈ pieces, piece.Legal) (hseparated : Separated pieces) :
    scanMarkup (markupBytes pieces).length (markupBytes pieces) = pieces.map Markup.plain :=
  scanMarkup_markupBytes hlegal hseparated (length_le_markupBytes hlegal)

end Foundation
