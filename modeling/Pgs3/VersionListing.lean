import Pgs3.ListingPages

/-!
# Listing the versions of a bucket

Translation of `list_versions` of `sql/bootstrap.sql`, of `list_versions` of `s3/db.rs` with
its probe, and of the markers that `s3/xml.rs` sends and a client receives for the next
request.

The scan is the one of `list`, over all versions: within a key the versions come in
descending order.  What differs is how a client resumes.  After a common prefix the next key
marker is `_prefix_end` of it, and a key marker is exclusive.  So a key that is equal to the
end of that prefix is passed over, and this is the only way in which pages lose an entry.  A
marker with a carriage return is received as a lesser one, and the page before is shown again.
-/

namespace Pgs3

open Foundation Foundation.Tx

variable {v n : Nat} {t k : Text} {o o' : ObjectRow}

/-! ## 1. The scan -/

structure VersionRequest where
  bucket : Text
  keyPrefix : Option Text
  delimiter : Option Text
  keyMarker : Option Text
  versionIdMarker : Option Int
  maxKeys : Int

def VersionRequest.effectivePrefix (r : VersionRequest) : Text := r.keyPrefix.getD []

def VersionRequest.effectiveDelimiter (r : VersionRequest) : Option Text :=
  r.delimiter.filter fun d => d ≠ []

structure VersionEntry where
  key : Option Text
  commonPrefix : Option Text
  versionId : Option Nat
  isLatest : Option Bool
  deleteMarker : Option Bool
  size : Option Nat
  etag : Option Text
  lastModified : Option Timestamp
  nextKeyMarker : Option Text
  nextVersionIdMarker : Option Int

/-- `v_key_seek`, `v_version_seek` and `v_inclusive`. -/
structure VersionCursor where
  keySeek : Option Text
  versionSeek : Option Int
  inclusive : Bool

def VersionCursor.admits (c : VersionCursor) (o : ObjectRow) : Bool :=
  match c.keySeek with
  | none => false
  | some seek =>
      match c.inclusive, c.versionSeek with
      | true, _ => seek ≤ o.key
      | false, none => seek < o.key
      | false, some v => seek < o.key ∨ (o.key = seek ∧ (o.versionId : Int) < v)

def versionEntry (o : ObjectRow) : VersionEntry :=
  ⟨some o.key, none, some o.versionId, some o.isLatest, some o.deleteMarker, some o.size, o.etag,
    some o.createdAt, some o.key, some o.versionId⟩

def versionPrefixEntry (common : Text) : VersionEntry :=
  ⟨none, some common, none, none, none, none, none, none, prefixEnd common, none⟩

/-- `ORDER BY key, version_id DESC`. -/
def versionOrder (a b : ObjectRow) : Prop :=
  a.key < b.key ∨ (a.key = b.key ∧ b.versionId ≤ a.versionId)

instance : DecidableRel versionOrder := fun a b =>
  inferInstanceAs (Decidable (a.key < b.key ∨ (a.key = b.key ∧ b.versionId ≤ a.versionId)))

def firstVersion (rows : List ObjectRow) (upper : Option Text) (c : VersionCursor) :
    Option ObjectRow :=
  ((rows.filter fun o => c.admits o && below upper o.key).insertionSort versionOrder).head?

def VersionRequest.start (r : VersionRequest) : VersionCursor :=
  match r.keyMarker with
  | none => ⟨some r.effectivePrefix, none, true⟩
  | some m =>
      if m < r.effectivePrefix then ⟨some r.effectivePrefix, none, true⟩
      else ⟨some m, r.versionIdMarker, false⟩

def versionLoop (r : VersionRequest) (rows : List ObjectRow) :
    Nat → Nat → VersionCursor → List VersionEntry
  | 0, _, _ => []
  | fuel + 1, emitted, c =>
      let upper := prefixEnd r.effectivePrefix
      if r.maxKeys ≤ emitted ∨ c.keySeek = none
          ∨ (∃ seek ∈ c.keySeek, below upper seek = false) then []
      else
        match firstVersion rows upper c with
        | none => []
        | some o =>
            match r.effectiveDelimiter.bind fun d => commonPrefixOf r.effectivePrefix d o.key with
            | some common =>
                let next : VersionCursor := ⟨prefixEnd common, none, true⟩
                if ∃ m ∈ r.keyMarker, common ≤ m then versionLoop r rows fuel emitted next
                else versionPrefixEntry common :: versionLoop r rows fuel (emitted + 1) next
            | none =>
                versionEntry o :: versionLoop r rows fuel (emitted + 1)
                  ⟨some o.key, some o.versionId, false⟩

def listVersions (c : Context) (r : VersionRequest) : DbTx (List VersionEntry) := do
  let bucketId ← bucketIdOf c r.bucket
  raiseIf (r.versionIdMarker.isSome ∧ r.keyMarker.isNone)
    (invalidParameter "version marker requires a key marker")
  raiseIf (r.maxKeys < 0 ∨ 1000 < r.maxKeys)
    (invalidParameter "max_keys must be between 0 and 1000")
  reading fun s =>
    let rows := s.object.rows.filter fun o => o.bucketId = bucketId
    .ok (versionLoop r rows (rows.length + 1) 0 r.start)

/-! ## 2. Pages over HTTP -/

structure VersionListParams where
  keyPrefix : Text
  delimiter : Option Text
  keyMarker : Option Text
  versionIdMarker : Option Int
  maxKeys : Int
  encodingTypeUrl : Bool

/-- `last.next_key_marker = None` and `last.next_version_id_marker = None`. -/
def clearLastMarkers (records : List VersionEntry) : List VersionEntry :=
  records.dropLast ++ (records.getLast?.map fun e =>
    { e with nextKeyMarker := none, nextVersionIdMarker := none }).toList

def listVersionRecords (c : Context) (bucket : Text) (p : VersionListParams) :
    DbTx (List VersionEntry) := do
  let rows ← listVersions c ⟨bucket, some p.keyPrefix, p.delimiter, p.keyMarker,
    p.versionIdMarker, p.maxKeys⟩
  match rows.getLast?.bind VersionEntry.nextKeyMarker with
  | none => pure rows
  | some keyMarker =>
      if 0 < p.maxKeys ∧ (rows.length : Int) = p.maxKeys then do
        let probe ← listVersions c ⟨bucket, some p.keyPrefix, p.delimiter, some keyMarker,
          rows.getLast?.bind VersionEntry.nextVersionIdMarker, 1⟩
        pure (if probe.isEmpty then clearLastMarkers rows else rows)
      else pure rows

def isVersionListTruncated (maxKeys : Int) (records : List VersionEntry) : Bool :=
  0 < maxKeys ∧ (records.length : Int) = maxKeys
    ∧ (records.getLast?.bind VersionEntry.nextKeyMarker).isSome

/-- A page, and the request with its `NextKeyMarker` and `NextVersionIdMarker`. -/
def fetchVersions (c : Context) (bucket : Text) (s : Db) (p : VersionListParams) :
    Except PgError (List VersionEntry × Option VersionListParams) :=
  match (commit (listVersionRecords c bucket p) s).1 with
  | .error e => .error e
  | .ok records =>
      .ok (records,
        if isVersionListTruncated p.maxKeys records then
          some { p with
            keyMarker := (records.getLast?.bind VersionEntry.nextKeyMarker).map
              (S3.ListingXml.received p.encodingTypeUrl)
            versionIdMarker := records.getLast?.bind VersionEntry.nextVersionIdMarker }
        else none)

/-! ## 3. Versions as words

A version is the word of its key followed by one letter for its number.  These letters come
before all characters, and greater numbers come first. -/

abbrev Letter := ℕᵒᵈ ⊕ₗ Char

def Letter.version (v : Nat) : Letter := toLex (.inl (OrderDual.toDual v))

def Letter.char (c : Char) : Letter := toLex (.inr c)

def chars (t : Text) : List Letter := t.map Letter.char

def word (o : ObjectRow) : List Letter := chars o.key ++ [.version o.versionId]

theorem version_lt_char {c : Char} : Letter.version v < .char c :=
  Sum.Lex.inl_lt_inr _ _

theorem char_lt_char {a b : Char} : Letter.char a < .char b ↔ a < b := Sum.Lex.inr_lt_inr_iff

theorem version_lt_version {w : Nat} : Letter.version v < .version w ↔ w < v :=
  Sum.Lex.inl_lt_inl_iff

theorem char_inj {a b : Char} : Letter.char a = .char b ↔ a = b := by
  constructor
  · exact fun h => Sum.inr.inj (toLex_inj.mp h)
  · exact fun h => h ▸ rfl

theorem chars_cons (a : Char) (t : Text) : chars (a :: t) = .char a :: chars t := rfl

/-- A text, or a text with a version behind it, is compared by the text first. -/
theorem chars_append_lt {a b : Text} {v w : Option Nat} :
    chars a ++ (v.map Letter.version).toList < chars b ++ (w.map Letter.version).toList ↔
      a < b ∨ a = b ∧ (v.map Letter.version).toList < (w.map Letter.version).toList := by
  induction a generalizing b with
  | nil =>
    cases b with
    | nil => simp [chars]
    | cons y b =>
      refine iff_of_true ?_ (Or.inl List.Lex.nil)
      cases v with
      | none => exact List.Lex.nil
      | some v => exact List.Lex.rel version_lt_char
  | cons x a ih =>
    cases b with
    | nil =>
      refine iff_of_false ?_ (by simp)
      cases w with
      | none => exact List.not_lt_nil _
      | some w =>
        intro h
        rcases lex_cons_lt_cons.mp h with hlt | ⟨heq, _⟩
        · exact absurd hlt (lt_asymm version_lt_char)
        · exact absurd (heq ▸ version_lt_char (v := w) (c := x)) (lt_irrefl _)
    | cons y b =>
      rw [chars_cons, chars_cons, List.cons_append, List.cons_append, lex_cons_lt_cons,
        char_lt_char, char_inj, ih, lex_cons_lt_cons, List.cons.injEq]
      tauto

theorem chars_lt_chars {a b : Text} : chars a < chars b ↔ a < b := by
  simpa using chars_append_lt (a := a) (b := b) (v := none) (w := none)

/-- A text comes before a version exactly if it does not come after its key. -/
theorem chars_lt_append : chars t < chars k ++ [.version v] ↔ t ≤ k := by
  simpa [le_iff_lt_or_eq] using chars_append_lt (a := t) (b := k) (v := none) (w := some v)

theorem append_lt_chars : chars k ++ [.version v] < chars t ↔ k < t := by
  simpa using chars_append_lt (a := k) (b := t) (v := some v) (w := none)

/-- **The order of versions**: by key, and within a key the latest first. -/
theorem word_lt_word :
    word o < word o' ↔ o.key < o'.key ∨ (o.key = o'.key ∧ o'.versionId < o.versionId) := by
  simpa [word, lex_cons_lt_cons, version_lt_version] using
    chars_append_lt (a := o.key) (b := o'.key) (v := some o.versionId) (w := some o'.versionId)

/-- The characters that a word begins with. -/
def charsOf : List Letter → Text
  | [] => []
  | a :: w =>
      match ofLex a with
      | .inl _ => []
      | .inr c => c :: charsOf w

@[simp] theorem charsOf_append (t : Text) (v : Nat) : charsOf (chars t ++ [.version v]) = t := by
  induction t with
  | nil => rfl
  | cons a t ih => exact congrArg (a :: ·) ih

@[simp] theorem charsOf_chars (t : Text) : charsOf (chars t) = t := by
  induction t with
  | nil => rfl
  | cons a t ih => exact congrArg (a :: ·) ih

theorem chars_isPrefix_iff {w : List Letter} : chars t <+: w ↔ t <+: charsOf w := by
  induction t generalizing w with
  | nil => simp [chars]
  | cons a t ih =>
    cases w with
    | nil => simp [chars, charsOf]
    | cons b w =>
      rw [chars_cons, List.cons_prefix_cons, ih, charsOf]
      cases hb : ofLex b with
      | inl v =>
        constructor
        · rintro ⟨rfl, _⟩
          exact absurd hb (by simp [Letter.char])
        · exact fun h => absurd (List.prefix_nil.mp h) (by simp)
      | inr c =>
        have hbc : b = .char c := hb
        rw [hbc, char_inj, List.cons_prefix_cons]

theorem chars_isPrefix_append : chars t <+: chars k ++ [.version v] ↔ t <+: k := by
  rw [chars_isPrefix_iff, charsOf_append]

theorem word_inj (h : word o = word o') : o.key = o'.key ∧ o.versionId = o'.versionId := by
  have hkey : o.key = o'.key := by
    have := congrArg charsOf h
    simpa [word] using this
  refine ⟨hkey, ?_⟩
  rcases Nat.lt_trichotomy o.versionId o'.versionId with hlt | heq | hgt
  · exact absurd (word_lt_word.mpr (Or.inr ⟨hkey.symm, hlt⟩)) (h ▸ lt_irrefl _)
  · exact heq
  · exact absurd (word_lt_word.mpr (Or.inr ⟨hkey, hgt⟩)) (h ▸ lt_irrefl _)

/-! ## 4. The rollup of versions -/

/-- Versions are grouped as their keys are. -/
def versionRollup (p : Text) (delimiter : Option Text) : Grouping Letter where
  group w := ((rollup p delimiter).group (charsOf w)).map chars
  isPrefix := by
    intro w c h
    obtain ⟨common, hcommon, rfl⟩ := Option.map_eq_some_iff.mp h
    exact chars_isPrefix_iff.mpr ((rollup p delimiter).isPrefix hcommon)
  closed := by
    intro w c w' h hc
    obtain ⟨common, hcommon, rfl⟩ := Option.map_eq_some_iff.mp h
    exact Option.map_eq_some_iff.mpr
      ⟨common, (rollup p delimiter).closed hcommon (chars_isPrefix_iff.mp hc), rfl⟩

/-- **The reference listing of versions.**  Every version that is not rolled up, and every
    common prefix once, in the order of keys and of descending versions. -/
def referenceVersions (rows : List ObjectRow) (p : Text) (delimiter : Option Text) :
    List (Entry Letter ObjectRow) :=
  (versionRollup p delimiter).listing word (withPrefix rows p)

section Cursors

variable {p : Text} {delimiter : Option Text}

theorem versionRollup_word (o : ObjectRow) :
    (versionRollup p delimiter).group (word o) = ((rollup p delimiter).group o.key).map chars := by
  simp [versionRollup, word]

def nextVersionCursor : Entry Letter ObjectRow → VersionCursor
  | .item o => ⟨some o.key, some o.versionId, false⟩
  | .group common => ⟨prefixEnd (charsOf common), none, true⟩

/-- **The cursor after an entry selects the versions beyond it.** -/
theorem nextVersionCursor_admits (o o' : ObjectRow) :
    (nextVersionCursor ((versionRollup p delimiter).entry word o)).admits o' = true ↔
      (versionRollup p delimiter).Beyond
        (((versionRollup p delimiter).entry word o).name word) (word o') := by
  cases hg : (rollup p delimiter).group o.key with
  | none =>
    have hnone : (versionRollup p delimiter).group (word o) = none := by
      rw [versionRollup_word, hg]
      rfl
    rw [Grouping.entry_of_none hnone]
    simp only [nextVersionCursor, VersionCursor.admits, Entry.name, Grouping.Beyond, hnone,
      word_lt_word, decide_eq_true_eq, reduceCtorEq, false_implies, implies_true, and_true]
    constructor
    · rintro (h | ⟨heq, hlt⟩)
      · exact Or.inl h
      · exact Or.inr ⟨heq.symm, by omega⟩
    · rintro (h | ⟨heq, hlt⟩)
      · exact Or.inl h
      · exact Or.inr ⟨heq.symm, by omega⟩
  | some common =>
    have hsome : (versionRollup p delimiter).group (word o) = some (chars common) := by
      rw [versionRollup_word, hg]
      rfl
    rw [Grouping.entry_of_some hsome]
    have hadmits : (nextVersionCursor (.group (chars common))).admits o' = true ↔
        common ≤ o'.key ∧ ¬ common <+: o'.key := by
      rw [← prefixEnd_le_iff]
      simp only [nextVersionCursor, VersionCursor.admits, charsOf_chars]
      cases prefixEnd common <;> simp
    rw [hadmits]
    simp only [Entry.name, Grouping.Beyond, Grouping.group_self hsome, Option.some.injEq,
      forall_eq', word, chars_lt_append, chars_isPrefix_append]

def VersionCursor.From (c : VersionCursor) (p : Text) : Prop :=
  ∀ seek, c.keySeek = some seek → p ≤ seek

theorem VersionCursor.le_of_admits {c : VersionCursor} {seek : Text} (h : c.admits o = true)
    (hs : c.keySeek = some seek) : seek ≤ o.key := by
  obtain ⟨keySeek, versionSeek, inclusive⟩ := c
  subst hs
  cases inclusive with
  | true => simpa [VersionCursor.admits] using h
  | false =>
    cases versionSeek with
    | none => exact le_of_lt (by simpa [VersionCursor.admits] using h)
    | some v =>
      have h : seek < o.key ∨ (o.key = seek ∧ (o.versionId : Int) < v) := by
        simpa [VersionCursor.admits] using h
      rcases h with h | ⟨h, _⟩
      · exact le_of_lt h
      · exact le_of_eq h.symm

theorem VersionCursor.admits_mono {c : VersionCursor} (h : c.admits o = true)
    (hlt : word o < word o') : c.admits o' = true := by
  obtain ⟨keySeek, versionSeek, inclusive⟩ := c
  cases keySeek with
  | none => exact h
  | some seek =>
    have hkey : o.key ≤ o'.key := by
      rcases word_lt_word.mp hlt with h | ⟨h, _⟩
      · exact le_of_lt h
      · exact le_of_eq h
    cases inclusive with
    | true =>
      simp only [VersionCursor.admits, decide_eq_true_eq] at h ⊢
      exact le_trans h hkey
    | false =>
      cases versionSeek with
      | none =>
        simp only [VersionCursor.admits, decide_eq_true_eq] at h ⊢
        exact lt_of_lt_of_le h hkey
      | some v =>
        simp only [VersionCursor.admits, decide_eq_true_eq] at h ⊢
        rcases h with h | ⟨h, hv⟩
        · exact Or.inl (lt_of_lt_of_le h hkey)
        · rcases word_lt_word.mp hlt with hlt | ⟨heq, hlt⟩
          · exact Or.inl (h ▸ hlt)
          · exact Or.inr ⟨heq ▸ h, by omega⟩

theorem nextVersionCursor_from (delimiter : Option Text) (hp : p <+: o.key) :
    (nextVersionCursor ((versionRollup p delimiter).entry word o)).From p := by
  intro seek hseek
  cases hg : (rollup p delimiter).group o.key with
  | none =>
    rw [Grouping.entry_of_none (by rw [versionRollup_word, hg]; rfl)] at hseek
    rw [← Option.some.inj hseek]
    exact le_of_isPrefix hp
  | some common =>
    rw [Grouping.entry_of_some (by rw [versionRollup_word, hg]; rfl)] at hseek
    have hseek : prefixEnd (charsOf (chars common)) = some seek := hseek
    rw [charsOf_chars] at hseek
    have hle := (prefixEnd_le_iff.mp ⟨seek, hseek, le_refl seek⟩).1
    exact le_trans (le_of_isPrefix (isPrefix_of_rollup hg)) hle

/-! ## 5. Turns of the loop -/

def versionScan (p : Text) (delimiter : Option Text) :
    Scan (versionRollup p delimiter) word VersionCursor where
  admits := VersionCursor.admits
  next := nextVersionCursor
  admits_mono := VersionCursor.admits_mono
  next_admits := nextVersionCursor_admits

abbrev selectedVersions (rows : List ObjectRow) (p : Text) (delimiter : Option Text)
    (c : VersionCursor) : List ObjectRow :=
  (versionScan p delimiter).selected (withPrefix rows p) c

abbrev leftVersions (rows : List ObjectRow) (p : Text) (delimiter : Option Text)
    (c : VersionCursor) : List (Entry Letter ObjectRow) :=
  (versionScan p delimiter).left (withPrefix rows p) c

variable {rows : List ObjectRow}

theorem versionOrder_iff {a b : ObjectRow} : versionOrder a b ↔ word a ≤ word b := by
  rw [← not_lt, word_lt_word, versionOrder]
  constructor
  · rintro (h | ⟨h, hv⟩) (h' | ⟨h', hv'⟩)
    · exact lt_asymm h h'
    · exact lt_irrefl _ (h' ▸ h)
    · exact lt_irrefl _ (h ▸ h')
    · omega
  · intro h
    rcases lt_trichotomy a.key b.key with hlt | heq | hgt
    · exact Or.inl hlt
    · exact Or.inr ⟨heq, by_contra fun hv => h (Or.inr ⟨heq.symm, by omega⟩)⟩
    · exact absurd (Or.inl hgt) h

instance : Std.Total versionOrder :=
  ⟨fun a b => by rw [versionOrder_iff, versionOrder_iff]; exact le_total _ _⟩

instance : IsTrans ObjectRow versionOrder :=
  ⟨fun a b c => by rw [versionOrder_iff, versionOrder_iff, versionOrder_iff]; exact le_trans⟩

theorem firstVersion_spec (delimiter : Option Text) {c : VersionCursor} (hc : c.From p) :
    (firstVersion rows (prefixEnd p) c = none → ∀ o ∈ withPrefix rows p, c.admits o = false) ∧
    ∀ o, firstVersion rows (prefixEnd p) c = some o → o ∈ selectedVersions rows p delimiter c ∧
      ∀ o' ∈ selectedVersions rows p delimiter c, word o ≤ word o' := by
  have hmem : ∀ o, (o ∈ withPrefix rows p ∧ c.admits o = true) ↔
      o ∈ (rows.filter fun o => c.admits o && below (prefixEnd p) o.key).insertionSort
        versionOrder := by
    intro o
    rw [mem_withPrefix, List.mem_insertionSort, List.mem_filter, Bool.and_eq_true, prefix_range]
    constructor
    · rintro ⟨⟨ho, _, hbelow⟩, hadm⟩
      exact ⟨ho, hadm, hbelow⟩
    · rintro ⟨ho, hadm, hbelow⟩
      refine ⟨⟨ho, ?_, hbelow⟩, hadm⟩
      cases hs : c.keySeek with
      | none => exact absurd hadm (by simp [VersionCursor.admits, hs])
      | some seek => exact le_trans (hc seek hs) (c.le_of_admits hadm hs)
  have hsorted := List.pairwise_insertionSort versionOrder
    (rows.filter fun o => c.admits o && below (prefixEnd p) o.key)
  unfold firstVersion
  constructor
  · intro hnone o ho
    rw [← Bool.not_eq_true]
    intro hadm
    have hin := (hmem o).mp ⟨ho, hadm⟩
    rw [List.head?_eq_none_iff.mp hnone] at hin
    exact absurd hin List.not_mem_nil
  · intro o ho
    obtain ⟨rest, hrest⟩ := List.head?_eq_some_iff.mp ho
    refine ⟨Scan.mem_selected.mpr ((hmem o).mpr (hrest ▸ List.mem_cons_self)), fun o' ho' => ?_⟩
    have ho' := (hmem o').mp (Scan.mem_selected.mp ho')
    rw [hrest] at ho'
    rw [hrest, List.pairwise_cons] at hsorted
    rcases List.mem_cons.mp ho' with rfl | ho'
    · exact le_refl _
    · exact versionOrder_iff.mp (hsorted.1 o' ho')

theorem withPrefix_word_nodup (hrows : (rows.map word).Nodup) (p : Text) :
    ((withPrefix rows p).map word).Nodup :=
  hrows.sublist (List.filter_sublist.map _)

/-- **A turn of the loop.** -/
theorem version_step (delimiter : Option Text) (hrows : (rows.map word).Nodup) {c : VersionCursor}
    (hc : c.From p) (ho : firstVersion rows (prefixEnd p) c = some o) :
    let e := (versionRollup p delimiter).entry word o
    o ∈ withPrefix rows p ∧
      leftVersions rows p delimiter c = e :: leftVersions rows p delimiter (nextVersionCursor e) ∧
      (selectedVersions rows p delimiter (nextVersionCursor e)).length
        < (selectedVersions rows p delimiter c).length := by
  obtain ⟨hmem, hmin⟩ := (firstVersion_spec delimiter hc).2 o ho
  exact ⟨(Scan.mem_selected.mp hmem).1,
    Scan.left_step (withPrefix_word_nodup hrows p) hmem hmin⟩

end Cursors

/-! ## 6. `list_versions` -/

def showVersion : Entry Letter ObjectRow → VersionEntry
  | .item o => versionEntry o
  | .group common => versionPrefixEntry (charsOf common)

def keptVersion (marker : Option Text) : Entry Letter ObjectRow → Bool
  | .item _ => true
  | .group common => after marker (charsOf common)

theorem keptVersion_group {marker : Option Text} {common : Text} :
    keptVersion marker (.group (chars common)) = true ↔ ¬ ∃ m ∈ marker, common ≤ m := by
  cases marker <;> simp [keptVersion, after]

/-- The entry of a row, as the loop computes it. -/
theorem versionRollup_entry {r : VersionRequest} (hp : r.effectivePrefix <+: o.key) :
    (versionRollup r.effectivePrefix r.effectiveDelimiter).entry word o
      = match r.effectiveDelimiter.bind fun d => commonPrefixOf r.effectivePrefix d o.key with
        | some common => .group (chars common)
        | none => .item o := by
  have hgroup : (rollup r.effectivePrefix r.effectiveDelimiter).group o.key
      = r.effectiveDelimiter.bind fun d => commonPrefixOf r.effectivePrefix d o.key := by
    simp only [rollup, hp, if_true]
  cases hg : r.effectiveDelimiter.bind fun d => commonPrefixOf r.effectivePrefix d o.key with
  | none => exact Grouping.entry_of_none (by rw [versionRollup_word, hgroup, hg]; rfl)
  | some common => exact Grouping.entry_of_some (by rw [versionRollup_word, hgroup, hg]; rfl)

theorem leftVersions_of_stop {rows : List ObjectRow} {p : Text} {delimiter : Option Text}
    {c : VersionCursor}
    (h : c.keySeek = none ∨ ∃ seek ∈ c.keySeek, below (prefixEnd p) seek = false) :
    leftVersions rows p delimiter c = [] := by
  apply Scan.left_eq_nil
  intro o ho
  by_contra hadm
  have hadm : c.admits o = true := Bool.not_eq_false _ ▸ hadm
  have hp := (mem_withPrefix.mp ho).2
  rcases h with hnone | ⟨seek, hseek, hbelow⟩
  · simp [VersionCursor.admits, hnone] at hadm
  · exact absurd (c.le_of_admits hadm hseek) (not_le_of_gt (lt_of_stop hp hbelow))

/-- **The loop lists what is left.** -/
theorem versionLoop_eq {r : VersionRequest} {rows : List ObjectRow}
    (hrows : (rows.map word).Nodup) {fuel emitted : Nat} {c : VersionCursor}
    (hc : c.From r.effectivePrefix)
    (hfuel : (selectedVersions rows r.effectivePrefix r.effectiveDelimiter c).length < fuel) :
    versionLoop r rows fuel emitted c
      = (((leftVersions rows r.effectivePrefix r.effectiveDelimiter c).filter
          (keptVersion r.keyMarker)).take (r.maxKeys.toNat - emitted)).map showVersion := by
  induction fuel generalizing emitted c with
  | zero => omega
  | succ fuel ih =>
    by_cases hfull : r.maxKeys ≤ emitted
    · have hzero : r.maxKeys.toNat - emitted = 0 := by omega
      simp only [versionLoop, hfull, true_or, if_true, hzero, List.take_zero, List.map_nil]
    by_cases hstop : c.keySeek = none ∨
        ∃ seek ∈ c.keySeek, below (prefixEnd r.effectivePrefix) seek = false
    · simp only [versionLoop, hstop, or_true, if_true, leftVersions_of_stop hstop,
        List.filter_nil, List.take_nil, List.map_nil]
    obtain ⟨n, hn⟩ := Nat.exists_eq_succ_of_ne_zero (show r.maxKeys.toNat - emitted ≠ 0 by omega)
    have hrest : r.maxKeys.toNat - (emitted + 1) = n := by omega
    have hgo := not_or.mpr ⟨hfull, hstop⟩
    cases hfirst : firstVersion rows (prefixEnd r.effectivePrefix) c with
    | none =>
      have hnil : leftVersions rows r.effectivePrefix r.effectiveDelimiter c = [] :=
        Scan.left_eq_nil ((firstVersion_spec r.effectiveDelimiter hc).1 hfirst)
      simp only [versionLoop, hgo, if_false, hfirst, hnil, List.filter_nil, List.take_nil,
        List.map_nil]
    | some o =>
      obtain ⟨hmem, hleft, hless⟩ := version_step r.effectiveDelimiter hrows hc hfirst
      have hp := (mem_withPrefix.mp hmem).2
      have hc' := nextVersionCursor_from r.effectiveDelimiter hp
      have ih := fun m => @ih m _ hc' (by omega)
      rw [versionRollup_entry hp] at hleft ih
      rw [hleft, hn]
      cases hg : r.effectiveDelimiter.bind fun d => commonPrefixOf r.effectivePrefix d o.key with
      | none =>
        simp only [hg] at ih
        simp only [versionLoop, hgo, if_false, hfirst, hg]
        rw [List.filter_cons_of_pos rfl, List.take_succ_cons, List.map_cons, ← hrest]
        exact congrArg _ (ih (emitted + 1))
      | some common =>
        simp only [hg] at ih
        simp only [nextVersionCursor, charsOf_chars] at ih
        simp only [versionLoop, hgo, if_false, hfirst, hg]
        by_cases hdrop : ∃ m ∈ r.keyMarker, common ≤ m
        · rw [if_pos hdrop, ih emitted, List.filter_cons_of_neg
            (mt keptVersion_group.mp (not_not_intro hdrop)), hn, nextVersionCursor, charsOf_chars]
        · rw [if_neg hdrop, ih (emitted + 1), List.filter_cons_of_pos
            (keptVersion_group.mpr hdrop), List.take_succ_cons, List.map_cons, hrest,
            nextVersionCursor, showVersion, charsOf_chars]

def remainingVersions (rows : List ObjectRow) (r : VersionRequest) :
    List (Entry Letter ObjectRow) :=
  (leftVersions rows r.effectivePrefix r.effectiveDelimiter r.start).filter
    (keptVersion r.keyMarker)

theorem start_from (r : VersionRequest) : r.start.From r.effectivePrefix := by
  intro seek hseek
  unfold VersionRequest.start at hseek
  split at hseek
  · exact le_of_eq (Option.some.inj hseek)
  · split at hseek
    · exact le_of_eq (Option.some.inj hseek)
    · rename_i hlt
      exact (Option.some.inj hseek) ▸ not_lt.mp hlt

def VersionRequest.accepted (r : VersionRequest) : Prop :=
  ¬ (r.versionIdMarker.isSome ∧ r.keyMarker.isNone) ∧ 0 ≤ r.maxKeys ∧ r.maxKeys ≤ 1000

def bucketRows (s : Db) (b : Nat) : List ObjectRow := s.object.rows.filter fun o => o.bucketId = b

theorem bucketRows_nodup (s : Db) (b : Nat) : ((bucketRows s b).map word).Nodup := by
  apply (s.object.nodup.of_map.filter _).map_on
  intro o ho r hr hword
  simp only [List.mem_filter, decide_eq_true_eq] at ho hr
  obtain ⟨hkey, hversion⟩ := word_inj hword
  apply List.inj_on_of_nodup_map s.object.nodup ho.1 hr.1
  simp only [ho.2, hr.2, hkey, hversion]

/-- **A page of `list_versions`.** -/
theorem listVersions_page {c : Context} {r : VersionRequest} {s : Db} {b : Nat}
    (hb : Yields (bucketIdOf c r.bucket) s b s) (hr : r.accepted) : Yields (listVersions c r) s
      (((remainingVersions (bucketRows s b) r).take r.maxKeys.toNat).map showVersion) s := by
  obtain ⟨hmarker, hpos, hmax⟩ := hr
  unfold listVersions
  rw [yields_bind]
  refine ⟨b, s, hb, ?_⟩
  simp only [yields_raiseIf_bind, yields_reading]
  refine ⟨hmarker, by omega, congrArg Except.ok ?_, trivial⟩
  exact versionLoop_eq (bucketRows_nodup s b) (start_from r) (Nat.lt_succ_of_le
    ((List.length_filter_le _ _).trans (List.length_filter_le _ _)))

/-! ## 7. What a marker leaves -/

/-- The key, or the common prefix, that an entry shows. -/
def entryKey : Entry Letter ObjectRow → Text
  | .item o => o.key
  | .group common => charsOf common

/-- A word after the versions that two markers name, and before the others. -/
def threshold (k : Text) (v : Option Int) : List Letter := chars k ++ [.version (v.getD 0).toNat]

section Markers

variable {rows : List ObjectRow} {p : Text} {delimiter : Option Text} {e e' : Entry Letter ObjectRow}

theorem mem_referenceVersions (he : e ∈ referenceVersions rows p delimiter) :
    ∃ o, p <+: o.key ∧ e = (versionRollup p delimiter).entry word o := by
  obtain ⟨o, ho, rfl⟩ := Grouping.mem_listing.mp he
  exact ⟨o, (mem_withPrefix.mp ho).2, rfl⟩

theorem entry_cases (p : Text) (delimiter : Option Text) (o : ObjectRow) :
    ((rollup p delimiter).group o.key = none ∧ (versionRollup p delimiter).entry word o = .item o) ∨
      ∃ common, (rollup p delimiter).group o.key = some common ∧
        (versionRollup p delimiter).entry word o = .group (chars common) := by
  cases hg : (rollup p delimiter).group o.key with
  | none => exact Or.inl ⟨rfl, Grouping.entry_of_none (by rw [versionRollup_word, hg]; rfl)⟩
  | some common =>
    exact Or.inr ⟨common, rfl, Grouping.entry_of_some (by rw [versionRollup_word, hg]; rfl)⟩

/-- Two markers select the versions after their threshold. -/
theorem admits_iff_threshold {v : Option Int} :
    (VersionCursor.mk (some k) v false).admits o = true ↔ threshold k v < word o := by
  have h := @word_lt_word { o with key := k, versionId := (v.getD 0).toNat } o
  simp only [word] at h
  rw [threshold, word, h]
  cases v with
  | none => simp [VersionCursor.admits]
  | some v =>
    simp only [VersionCursor.admits, decide_eq_true_eq, Option.getD_some, eq_comm (a := k)]
    rw [Int.lt_toNat]

/-- **What a request lists**: all that comes after the threshold of its markers. -/
theorem remainingVersions_eq (hrows : (rows.map word).Nodup) (r : VersionRequest) :
    remainingVersions rows r
      = cutAfter (Entry.name word) (referenceVersions rows r.effectivePrefix r.effectiveDelimiter)
          (r.keyMarker.map (threshold · r.versionIdMarker)) := by
  cases hk : r.keyMarker with
  | none =>
    have hall : ∀ o ∈ withPrefix rows r.effectivePrefix, r.start.admits o = true := by
      intro o ho
      simpa [VersionRequest.start, hk, VersionCursor.admits] using
        le_of_isPrefix (mem_withPrefix.mp ho).2
    have hkept : keptVersion none = fun _ => true := by
      funext e
      cases e <;> rfl
    have hleft : leftVersions rows r.effectivePrefix r.effectiveDelimiter r.start
        = referenceVersions rows r.effectivePrefix r.effectiveDelimiter :=
      congrArg (Grouping.listing _ word) (List.filter_eq_self.mpr hall)
    rw [remainingVersions, hk, hkept, List.filter_true, hleft]
    exact (List.filter_eq_self.mpr fun _ _ => rfl).symm
  | some k =>
    rw [remainingVersions, hk]
    apply Grouping.listing_after (m := threshold k r.versionIdMarker) (withPrefix_word_nodup hrows _)
    · intro o ho
      change r.start.admits o = true ↔ _
      rw [← admits_iff_threshold, VersionRequest.start, hk]
      by_cases hlt : k < r.effectivePrefix
      · have hle := le_of_isPrefix (mem_withPrefix.mp ho).2
        have hko := lt_of_lt_of_le hlt hle
        cases r.versionIdMarker <;> simp [VersionCursor.admits, hlt, hle, hko]
      · simp only [hlt, if_false]
    · exact fun o => rfl
    · intro o c hc
      rw [versionRollup_word] at hc
      obtain ⟨common, _, rfl⟩ := Option.map_eq_some_iff.mp hc
      simp only [keptVersion, after, charsOf_chars, Option.all_some, decide_eq_true_eq]
      exact append_lt_chars.symm
    · intro o
      simp

theorem referenceVersions_pairwise (hrows : (rows.map word).Nodup) (p : Text)
    (delimiter : Option Text) :
    (referenceVersions rows p delimiter).Pairwise fun e e' => e.name word < e'.name word :=
  Grouping.listing_pairwise (withPrefix_word_nodup hrows p)

/-- What the next request resumes after, if its key marker is received so. -/
def resumesVersions (receive : Text → Text) (e : Entry Letter ObjectRow) : List Letter :=
  match (showVersion e).nextKeyMarker with
  | none => e.name word
  | some k => threshold (receive k) (showVersion e).nextVersionIdMarker

theorem resumesVersions_group {receive : Text → Text} {common : Text}
    (hk : prefixEnd common = some k) :
    resumesVersions receive (.group (chars common)) = threshold (receive k) none := by
  simp only [resumesVersions, showVersion, versionPrefixEntry, charsOf_chars, hk]

theorem resumesVersions_end {receive : Text → Text} {common : Text} (hk : prefixEnd common = none) :
    resumesVersions receive (.group (chars common)) = chars common := by
  simp only [resumesVersions, showVersion, versionPrefixEntry, charsOf_chars, hk, Entry.name]

theorem name_le_resumesVersions (he : e ∈ referenceVersions rows p delimiter) :
    e.name word ≤ resumesVersions id e := by
  obtain ⟨o, _, rfl⟩ := mem_referenceVersions he
  rcases entry_cases p delimiter o with ⟨_, hi⟩ | ⟨common, _, hi⟩
  · rw [hi]
    exact le_refl _
  · rw [hi]
    cases hk : prefixEnd common with
    | none => rw [resumesVersions_end hk]; exact le_refl _
    | some k =>
      rw [resumesVersions_group hk]
      exact le_of_lt (chars_lt_append.mpr (prefixEnd_le_iff.mp ⟨k, hk, le_refl k⟩).1)

/-- Its key marker is sent as it is, or has a carriage return and is received as one before
    the entry. -/
theorem resumesVersions_received (url : Bool) (he : e ∈ referenceVersions rows p delimiter) :
    (url = true ∨ ∀ k, (showVersion e).nextKeyMarker = some k → '\r' ∉ k) ∧
        resumesVersions (S3.ListingXml.received url) e = resumesVersions id e ∨
      (url = false ∧ ∃ k, (showVersion e).nextKeyMarker = some k ∧ '\r' ∈ k) ∧
        resumesVersions (S3.ListingXml.received url) e < e.name word := by
  by_cases h : url = true ∨ ∀ k, (showVersion e).nextKeyMarker = some k → '\r' ∉ k
  · refine Or.inl ⟨h, ?_⟩
    unfold resumesVersions
    cases hk : (showVersion e).nextKeyMarker with
    | none => rfl
    | some k =>
      have hsame := S3.ListingXml.received_eq_self (h.imp_right fun hall => hall k hk)
      simp only [hsame, id]
  · simp only [not_or, not_forall, not_not] at h
    obtain ⟨hurl, k, hk, hreturn⟩ := h
    rw [Bool.eq_false_iff.mpr hurl]
    refine Or.inr ⟨⟨rfl, k, hk, hreturn⟩, ?_⟩
    obtain ⟨o, _, rfl⟩ := mem_referenceVersions he
    rcases entry_cases p delimiter o with ⟨_, hi⟩ | ⟨common, _, hi⟩
    · rw [hi] at hk ⊢
      obtain rfl := Option.some.inj hk
      exact (@word_lt_word { o with key := normalizeEol o.key } o).mpr
        (Or.inl (normalizeEol_lt hreturn))
    · rw [hi] at hk ⊢
      have hk : prefixEnd common = some k := by
        simpa [showVersion, versionPrefixEntry] using hk
      rw [resumesVersions_group hk]
      exact append_lt_chars.mpr (normalizeEol_prefixEnd_lt hk hreturn)

theorem prefixEnd_le_entryKey {common : Text}
    (ho : (versionRollup p delimiter).entry word o = .group (chars common))
    (hlt : ((versionRollup p delimiter).entry word o).name word
      < ((versionRollup p delimiter).entry word o').name word) (hk : prefixEnd common = some k) :
    k ≤ entryKey ((versionRollup p delimiter).entry word o') := by
  have hadm := (nextVersionCursor_admits o o').mpr
    ((Grouping.lt_name_iff (Grouping.isName_name o) o').mp hlt)
  rw [ho] at hlt hadm
  have hadm : k ≤ o'.key := by
    simpa [nextVersionCursor, VersionCursor.admits, hk] using hadm
  rcases entry_cases p delimiter o' with ⟨_, hi⟩ | ⟨common', hg, hi⟩
  · rw [hi]
    exact hadm
  · rw [hi] at hlt ⊢
    have hfar := (prefixEnd_le_iff.mp ⟨k, hk, hadm⟩).2
    have hle : common ≤ common' := le_of_lt (chars_lt_chars.mp hlt)
    have hpre : ¬ common <+: common' := fun h =>
      hfar (h.trans ((rollup p delimiter).isPrefix hg))
    obtain ⟨u, hu, huc⟩ := prefixEnd_le_iff.mpr ⟨hle, hpre⟩
    rw [hk] at hu
    simpa [entryKey, Option.some.inj hu] using huc

end Markers

/-! ## 8. Pages over HTTP -/

def VersionEntry.shown (e : VersionEntry) : VersionEntry :=
  { e with nextKeyMarker := none, nextVersionIdMarker := none }

theorem clearLastMarkers_shown (records : List VersionEntry) :
    (clearLastMarkers records).map VersionEntry.shown = records.map VersionEntry.shown := by
  rcases List.eq_nil_or_concat' records with rfl | ⟨front, last, rfl⟩
  · rfl
  · simp [clearLastMarkers, VersionEntry.shown]

theorem getLast?_clearLastMarkers (records : List VersionEntry) :
    (clearLastMarkers records).getLast?.bind VersionEntry.nextKeyMarker = none := by
  rcases List.eq_nil_or_concat' records with rfl | ⟨front, last, rfl⟩
  · rfl
  · simp [clearLastMarkers]

def VersionListParams.request (p : VersionListParams) (bucket : Text) : VersionRequest :=
  ⟨bucket, some p.keyPrefix, p.delimiter, p.keyMarker, p.versionIdMarker, p.maxKeys⟩

section Http

variable {c : Context} {s : Db} {b : Nat} {bucket : Text}

theorem isVersionListTruncated_iff {records : List VersionEntry} :
    isVersionListTruncated (n + 1 : Nat) records = true ↔
      records.length = n + 1 ∧ (records.getLast?.bind VersionEntry.nextKeyMarker).isSome := by
  simp only [isVersionListTruncated, decide_eq_true_eq]
  constructor
  · rintro ⟨_, hlen, hmark⟩
    exact ⟨by omega, hmark⟩
  · rintro ⟨hlen, hmark⟩
    exact ⟨by omega, by omega, hmark⟩

theorem listVersionRecords_done {p : VersionListParams} {rows : List VersionEntry}
    (hpage : Yields (listVersions c (p.request bucket)) s rows s)
    (hdone : rows.getLast?.bind VersionEntry.nextKeyMarker = none ∨
      ¬ (0 < p.maxKeys ∧ (rows.length : Int) = p.maxKeys)) :
    Yields (listVersionRecords c bucket p) s rows s := by
  refine yields_bind.mpr ⟨rows, s, hpage, ?_⟩
  cases hlast : rows.getLast?.bind VersionEntry.nextKeyMarker with
  | none => exact yields_pure.mpr ⟨rfl, rfl⟩
  | some k =>
    rcases hdone with h | h
    · exact absurd (hlast.symm.trans h) (by simp)
    · simp only [h, if_false]
      exact yields_pure.mpr ⟨rfl, rfl⟩

theorem listVersionRecords_probed {p : VersionListParams} {rows probe : List VersionEntry}
    (hpage : Yields (listVersions c (p.request bucket)) s rows s)
    (hlast : rows.getLast?.bind VersionEntry.nextKeyMarker = some k)
    (hfull : 0 < p.maxKeys ∧ (rows.length : Int) = p.maxKeys)
    (hprobe : Yields (listVersions c ⟨bucket, some p.keyPrefix, p.delimiter, some k,
      rows.getLast?.bind VersionEntry.nextVersionIdMarker, 1⟩) s probe s) :
    Yields (listVersionRecords c bucket p) s
      (if probe.isEmpty then clearLastMarkers rows else rows) s := by
  refine yields_bind.mpr ⟨rows, s, hpage, ?_⟩
  simp only [hlast, hfull, and_self, if_true]
  exact yields_bind.mpr ⟨probe, s, hprobe, yields_pure.mpr ⟨rfl, rfl⟩⟩

/-- What a page says about a listing that it begins. -/
structure VersionPage (rows : List ObjectRow) (r : VersionRequest)
    (l : List (Entry Letter ObjectRow)) (n : Nat) (records : List VersionEntry) : Prop where
  shown : records.map VersionEntry.shown = (l.take (n + 1)).map fun e => (showVersion e).shown
  done : isVersionListTruncated (n + 1 : Nat) records = false → ∀ e, l[n]? = some e →
    cutAfter (Entry.name word) (referenceVersions rows r.effectivePrefix r.effectiveDelimiter)
      (some (resumesVersions id e)) = []
  more : isVersionListTruncated (n + 1 : Nat) records = true → ∃ e k, l[n]? = some e ∧
    cutAfter (Entry.name word) (referenceVersions rows r.effectivePrefix r.effectiveDelimiter)
      (some (resumesVersions id e)) ≠ [] ∧
    (showVersion e).nextKeyMarker = some k ∧ records.getLast? = some (showVersion e)

theorem VersionPage.of_last {rows : List ObjectRow} {r : VersionRequest}
    {l : List (Entry Letter ObjectRow)} {records : List VersionEntry}
    (hshown : records.map VersionEntry.shown = (l.take (n + 1)).map fun e => (showVersion e).shown)
    (hlast : isVersionListTruncated (n + 1 : Nat) records = false)
    (hdone : ∀ e, l[n]? = some e → cutAfter (Entry.name word)
      (referenceVersions rows r.effectivePrefix r.effectiveDelimiter)
        (some (resumesVersions id e)) = []) : VersionPage rows r l n records where
  shown := hshown
  done := fun _ => hdone
  more := fun h => absurd (hlast.symm.trans h) (by simp)

theorem getLast?_map_take {l : List (Entry Letter ObjectRow)} {e : Entry Letter ObjectRow}
    (he : l[n]? = some e) : ((l.take (n + 1)).map showVersion).getLast? = some (showVersion e) := by
  rw [List.take_add_one, he]
  simp

/-- **A page of versions.** -/
theorem listVersionRecords_page (hbucket : Yields (bucketIdOf c bucket) s b s)
    {p : VersionListParams} (hr : (p.request bucket).accepted) {l : List (Entry Letter ObjectRow)}
    (hl : remainingVersions (bucketRows s b) (p.request bucket) = l)
    (hn : p.maxKeys = (n + 1 : Nat)) :
    ∃ records, Yields (listVersionRecords c bucket p) s records s ∧
      VersionPage (bucketRows s b) (p.request bucket) l n records := by
  have hpage := listVersions_page hbucket hr
  have htake : (p.request bucket).maxKeys.toNat = n + 1 := by
    change p.maxKeys.toNat = n + 1
    omega
  rw [hl, htake] at hpage
  have hlen : ((l.take (n + 1)).map showVersion).length = min (n + 1) l.length := by simp
  have hshown : ((l.take (n + 1)).map showVersion).map VersionEntry.shown
      = (l.take (n + 1)).map fun e => (showVersion e).shown := by
    rw [List.map_map]
    rfl
  cases he : l[n]? with
  | none =>
    -- the page is not full
    have hshort := List.getElem?_eq_none_iff.mp he
    refine ⟨_, listVersionRecords_done hpage (Or.inr (by omega)), .of_last hshown ?_ fun e he' => ?_⟩
    · rw [← Bool.not_eq_true, isVersionListTruncated_iff]
      omega
    · exact absurd (he.symm.trans he') (by simp)
  | some e =>
    have hlast := getLast?_map_take he
    have hfull : n < l.length := (List.getElem?_eq_some_iff.mp he).1
    cases hk : (showVersion e).nextKeyMarker with
    | none =>
      -- no key can follow the last common prefix
      have hnone : ((l.take (n + 1)).map showVersion).getLast?.bind VersionEntry.nextKeyMarker
          = none := by rw [hlast]; exact hk
      refine ⟨_, listVersionRecords_done hpage (Or.inl hnone), .of_last hshown ?_ fun e' he' => ?_⟩
      · rw [← Bool.not_eq_true, isVersionListTruncated_iff, hnone]
        simp
      · obtain rfl := Option.some.inj (he.symm.trans he')
        have hmem := List.mem_of_getElem? he
        rw [← hl, remainingVersions_eq (bucketRows_nodup s b)] at hmem
        obtain ⟨o, _, rfl⟩ := mem_referenceVersions (List.mem_filter.mp hmem).1
        simp only [resumesVersions, hk]
        refine (Scan.left_next (S := versionScan _ _) (withPrefix_word_nodup (bucketRows_nodup s b) _)
          o).symm.trans (leftVersions_of_stop (Or.inl ?_))
        rcases entry_cases (p.request bucket).effectivePrefix (p.request bucket).effectiveDelimiter o
          with ⟨_, hi⟩ | ⟨common, _, hi⟩
        · rw [hi] at hk
          cases hk
        · rw [hi] at hk ⊢
          exact hk
    | some k =>
      have hmark : ((l.take (n + 1)).map showVersion).getLast?.bind VersionEntry.nextKeyMarker
          = some k := by rw [hlast]; exact hk
      -- the probe asks with the markers of the entry
      have hprobe : Yields (listVersions c ⟨bucket, some p.keyPrefix, p.delimiter, some k,
          ((l.take (n + 1)).map showVersion).getLast?.bind VersionEntry.nextVersionIdMarker, 1⟩) s
          (((cutAfter (Entry.name word) (referenceVersions (bucketRows s b)
            (p.request bucket).effectivePrefix (p.request bucket).effectiveDelimiter)
              (some (resumesVersions id e))).take 1).map showVersion) s := by
        have hresumes : resumesVersions id e
            = threshold k (showVersion e).nextVersionIdMarker := by
          simp only [resumesVersions, hk, id]
        rw [hresumes, hlast]
        have hprobe := listVersions_page (r := ⟨bucket, some p.keyPrefix, p.delimiter, some k,
          (showVersion e).nextVersionIdMarker, 1⟩) hbucket ⟨by simp, Int.one_nonneg, by norm_num⟩
        rw [remainingVersions_eq (bucketRows_nodup s b)] at hprobe
        exact hprobe
      have hyields := listVersionRecords_probed hpage hmark ⟨by omega, by omega⟩ hprobe
      cases hrest : cutAfter (Entry.name word) (referenceVersions (bucketRows s b)
          (p.request bucket).effectivePrefix (p.request bucket).effectiveDelimiter)
            (some (resumesVersions id e)) with
      | nil =>
        rw [hrest] at hyields
        refine ⟨clearLastMarkers ((l.take (n + 1)).map showVersion), hyields,
          .of_last ?_ ?_ fun e' he' => ?_⟩
        · rw [← hshown]
          exact clearLastMarkers_shown _
        · rw [← Bool.not_eq_true, isVersionListTruncated_iff, getLast?_clearLastMarkers]
          simp
        · exact Option.some.inj (he.symm.trans he') ▸ hrest
      | cons first rest =>
        rw [hrest] at hyields
        refine ⟨(l.take (n + 1)).map showVersion, hyields, hshown, fun h => ?_,
          fun _ => ⟨e, k, he, ?_, hk, hlast⟩⟩
        · rw [← Bool.not_eq_true, isVersionListTruncated_iff, hmark] at h
          exact absurd ⟨by omega, rfl⟩ h
        · rw [hrest]
          exact List.cons_ne_nil _ _

/-! ## 9. Following the pages -/

/-- The requests that a client comes to make that began with `p₀`, and what they list. -/
def ResumesVersions (p₀ p : VersionListParams) (t : Option (List Letter)) : Prop :=
  ∃ keyMarker versionIdMarker,
    p = { p₀ with keyMarker := keyMarker, versionIdMarker := versionIdMarker } ∧
    ¬ (versionIdMarker.isSome ∧ keyMarker.isNone) ∧ t = keyMarker.map (threshold · versionIdMarker)

theorem fetchVersions_eq {p : VersionListParams} {records : List VersionEntry} {m : Int}
    (hm : p.maxKeys = m) (h : Yields (listVersionRecords c bucket p) s records s) :
    fetchVersions c bucket s p = .ok (records,
      if isVersionListTruncated m records then
        some { p with
          keyMarker := (records.getLast?.bind VersionEntry.nextKeyMarker).map
            (S3.ListingXml.received p.encodingTypeUrl)
          versionIdMarker := records.getLast?.bind VersionEntry.nextVersionIdMarker }
      else none) := by
  subst hm
  simp only [fetchVersions, commit_ok_iff.mpr h]

/-- **Pages of versions resume at thresholds.** -/
theorem versionPaging (p₀ : VersionListParams) (hbucket : Yields (bucketIdOf c bucket) s b s)
    (hn : p₀.maxKeys = (n + 1 : Nat)) (hmax : n + 1 ≤ 1000) :
    Paging (fetchVersions c bucket s) (List.map VersionEntry.shown)
      (isVersionListTruncated (n + 1 : Nat)) (Entry.name word) (fun e => (showVersion e).shown)
      (referenceVersions (bucketRows s b) p₀.keyPrefix (p₀.request bucket).effectiveDelimiter) n
      (resumesVersions id) (resumesVersions (S3.ListingXml.received p₀.encodingTypeUrl))
      (ResumesVersions p₀) where
  sorted := referenceVersions_pairwise (bucketRows_nodup s b) _ _
  shows := by
    intro e he e' he' h
    obtain ⟨o, _, rfl⟩ := mem_referenceVersions he
    obtain ⟨o', _, rfl⟩ := mem_referenceVersions he'
    have hkey := congrArg VersionEntry.key h
    have hversion := congrArg VersionEntry.versionId h
    have hprefix := congrArg VersionEntry.commonPrefix h
    rcases entry_cases p₀.keyPrefix (p₀.request bucket).effectiveDelimiter o with
      ⟨_, hi⟩ | ⟨common, _, hi⟩ <;>
    rcases entry_cases p₀.keyPrefix (p₀.request bucket).effectiveDelimiter o' with
      ⟨_, hi'⟩ | ⟨common', _, hi'⟩ <;>
    rw [hi, hi'] at hkey hversion hprefix ⊢
    · simp only [Entry.name, word]
      rw [Option.some.inj hkey, Option.some.inj hversion]
    · cases hkey
    · cases hkey
    · have hsame : common = common' := by
        simpa [showVersion, versionPrefixEntry, VersionEntry.shown] using hprefix
      rw [hsame]
  mark_le := fun e he => name_le_resumesVersions he
  sent_or := fun e he =>
    (resumesVersions_received p₀.encodingTypeUrl he).imp And.right And.right
  page := by
    rintro p t ⟨keyMarker, versionIdMarker, rfl, hmarkers, rfl⟩
    have haccepted : (VersionListParams.request { p₀ with
        keyMarker := keyMarker, versionIdMarker := versionIdMarker } bucket).accepted := by
      refine ⟨hmarkers, ?_, ?_⟩
      · change 0 ≤ p₀.maxKeys
        omega
      · change p₀.maxKeys ≤ 1000
        omega
    obtain ⟨records, hyields, hpage⟩ := listVersionRecords_page hbucket haccepted
      (remainingVersions_eq (bucketRows_nodup s b) _) hn
    refine ⟨records, _, fetchVersions_eq hn hyields, hpage.shown, ?_, ?_, ?_⟩
    · cases isVersionListTruncated (n + 1 : Nat) records <;> rfl
    · intro hnone
      apply hpage.done
      rw [← Bool.not_eq_true]
      exact fun h => absurd (ite_eq_right_iff.mp hnone h) (by simp)
    · intro p' hp'
      obtain ⟨htrunc, hp'⟩ := Option.ite_none_right_eq_some.mp hp'
      obtain ⟨e, k, he, hmore, hk, hlast⟩ := hpage.more htrunc
      obtain rfl := Option.some.inj hp'
      refine ⟨e, he, hmore, some (S3.ListingXml.received p₀.encodingTypeUrl k),
        (showVersion e).nextVersionIdMarker, ?_, by simp, ?_⟩
      · rw [hlast, Option.bind_some, Option.bind_some, hk]
        rfl
      · simp only [resumesVersions, hk, Option.map_some]

/-- The entry with index `i` is a common prefix, and the key of the next entry is the end of
    that prefix. -/
def GapAt (l : List (Entry Letter ObjectRow)) (i : Nat) : Prop :=
  ∃ common e, l[i]? = some (.group (chars common)) ∧ l[i + 1]? = some e ∧
    prefixEnd common = some (entryKey e)

/-- The entry with index `i` is followed by another one, and its key marker has a carriage
    return. -/
def VersionReturnAt (l : List (Entry Letter ObjectRow)) (i : Nat) : Prop :=
  ∃ e e' k, l[i]? = some e ∧ l[i + 1]? = some e' ∧ (showVersion e).nextKeyMarker = some k ∧
    '\r' ∈ k

theorem threshold_lt_name {p : Text} {delimiter : Option Text} (o : ObjectRow) :
    threshold k none < ((versionRollup p delimiter).entry word o).name word ↔
      k < entryKey ((versionRollup p delimiter).entry word o) := by
  rcases entry_cases p delimiter o with ⟨_, hi⟩ | ⟨common, _, hi⟩
  · rw [hi]
    simp only [Entry.name, entryKey, ← admits_iff_threshold]
    simp [VersionCursor.admits]
  · rw [hi]
    simp only [Entry.name, entryKey, charsOf_chars]
    exact append_lt_chars

/-- **One boundary.**  The next page begins with the next entry unless there is a gap, or the
    marker is received as another one. -/
theorem whole_versions_iff {rows : List ObjectRow} (hrows : (rows.map word).Nodup) {p : Text}
    {delimiter : Option Text} {url : Bool} {l : List (Entry Letter ObjectRow)}
    (hl : l = referenceVersions rows p delimiter) :
    Paging.Whole (Entry.name word) (resumesVersions (S3.ListingXml.received url)) n l ↔
      ∀ j, ¬ GapAt l (j * (n + 1) + n) ∧ (url = true ∨ ¬ VersionReturnAt l (j * (n + 1) + n)) := by
  have hmem : ∀ {i e}, l[i]? = some e → e ∈ referenceVersions rows p delimiter := fun he =>
    hl ▸ List.mem_of_getElem? he
  constructor
  · intro hwhole j
    constructor
    · rintro ⟨common, e', he, he', hk⟩
      obtain ⟨hle, hlt⟩ := hwhole j _ _ he he'
      rcases resumesVersions_received url (hmem he) with ⟨_, hsame⟩ | ⟨_, hearly⟩
      · obtain ⟨o', _, rfl⟩ := mem_referenceVersions (hmem he')
        rw [hsame, resumesVersions_group hk] at hlt
        exact lt_irrefl _ ((threshold_lt_name o').mp hlt)
      · exact absurd hle (not_le_of_gt hearly)
    · by_contra h
      rw [not_or, not_not] at h
      obtain ⟨hurl, e, e', k, he, he', hk, hreturn⟩ := h
      rcases resumesVersions_received url (hmem he) with ⟨hplain, _⟩ | ⟨_, hearly⟩
      · exact hplain.resolve_left hurl k hk hreturn
      · exact absurd (hwhole j e e' he he').1 (not_le_of_gt hearly)
  · intro h j e e' he he'
    rcases resumesVersions_received url (hmem he) with ⟨_, hsame⟩ | ⟨⟨hurl, k, hk, hreturn⟩, _⟩
    · rw [hsame]
      refine ⟨name_le_resumesVersions (hmem he), ?_⟩
      have hlt : e.name word < e'.name word := by
        obtain ⟨hi, rfl⟩ := List.getElem?_eq_some_iff.mp he
        obtain ⟨hi', rfl⟩ := List.getElem?_eq_some_iff.mp he'
        exact List.pairwise_iff_getElem.mp (hl ▸ referenceVersions_pairwise hrows p delimiter) _ _
          hi hi' (Nat.lt_succ_self _)
      obtain ⟨o, _, rfl⟩ := mem_referenceVersions (hmem he)
      obtain ⟨o', _, rfl⟩ := mem_referenceVersions (hmem he')
      rcases entry_cases p delimiter o with ⟨_, hi⟩ | ⟨common, _, hi⟩
      · rw [hi] at hlt ⊢
        exact hlt
      · cases hk : prefixEnd common with
        | none =>
          rw [hi] at hlt ⊢
          rwa [resumesVersions_end hk]
        | some k =>
          have hle := prefixEnd_le_entryKey hi hlt hk
          rw [hi, resumesVersions_group hk, id, threshold_lt_name]
          refine lt_of_le_of_ne hle fun heq => (h j).1 ⟨common, _, ?_, he', heq ▸ hk⟩
          rw [he, hi]
    · exact absurd ⟨e, e', k, he, he', hk, hreturn⟩ ((h j).2.resolve_left (by simp [hurl]))

theorem fetchVersions_refuses {p : VersionListParams} (hmax : 1000 < p.maxKeys) :
    ∃ e, fetchVersions c bucket s p = .error e := by
  unfold fetchVersions
  cases hcommit : commit (listVersionRecords c bucket p) s with
  | mk result s' =>
    cases result with
    | error e => exact ⟨e, rfl⟩
    | ok records =>
      obtain ⟨_, _, hlist, _⟩ := yields_bind.mp (commit_ok_iff.mp hcommit)
      obtain ⟨_, _, _, hrest⟩ := yields_bind.mp hlist
      simp only [yields_raiseIf_bind] at hrest
      exact absurd (Or.inr hmax) hrest.2.1

end Http

/-- **Listing versions.**  For any visible bucket, prefix, delimiter and page size that
    `list_versions` accepts, and if the texts that are sent are texts of XML, or encoded:
    following `NextKeyMarker` and `NextVersionIdMarker` ends if no key marker has a carriage
    return, or all are encoded, and shows entries of the listing in order, each at most once.
    It shows all of them iff no page ends with a common prefix whose end is the key of the next
    entry, nor with a key marker that has a carriage return and is not encoded. -/
theorem version_pages_complete_iff {c : Context} {s : Db} {bucket : Text} {b : Nat}
    (hbucket : Yields (bucketIdOf c bucket) s b s) (keyPrefix : Text) (delimiter : Option Text)
    {n : Nat} (hn : 1 ≤ n) (url : Bool) :
    let p : VersionListParams := ⟨keyPrefix, delimiter, none, none, n, url⟩
    let listing := referenceVersions (bucketRows s b) keyPrefix (p.request bucket).effectiveDelimiter
    (1000 < n ∧ ∃ e, fetchVersions c bucket s p = .error e) ∨
    (n ≤ 1000 ∧ listing.Pairwise (fun e e' => e.name word < e'.name word) ∧
      ((url = true ∨ ∀ e ∈ listing, ∀ t ∈ entryKey e :: (showVersion e).nextKeyMarker.toList,
          ∀ ch ∈ t, isXmlChar ch = true) →
        ((url = true ∨ ∀ e ∈ listing, ∀ k, (showVersion e).nextKeyMarker = some k → '\r' ∉ k) →
          ∃ pages, Followed (fetchVersions c bucket s) p pages ∧
            ((pages.map (List.map VersionEntry.shown)).flatten).Sublist
              (listing.map fun e => (showVersion e).shown)) ∧
        (Composes (fetchVersions c bucket s) (List.map VersionEntry.shown)
            (isVersionListTruncated n) p (listing.map fun e => (showVersion e).shown) ↔
          ∀ j, ¬ GapAt listing (j * n + (n - 1)) ∧
            (url = true ∨ ¬ VersionReturnAt listing (j * n + (n - 1)))))) := by
  intro p listing
  rcases Nat.lt_or_ge 1000 n with hmax | hmax
  · refine Or.inl ⟨hmax, fetchVersions_refuses ?_⟩
    change (1000 : Int) < n
    omega
  · obtain ⟨m, rfl⟩ := Nat.exists_eq_add_of_le' hn
    have hrows := bucketRows_nodup s b
    have hpaging := versionPaging p hbucket rfl hmax
    have hfirst : ResumesVersions p p none := ⟨none, none, rfl, by simp, rfl⟩
    have hall : cutAfter (Entry.name word) listing none = listing :=
      List.filter_eq_self.mpr fun _ _ => rfl
    refine Or.inr ⟨hmax, referenceVersions_pairwise hrows _ _, fun _ => ⟨fun hplain => ?_, ?_⟩⟩
    · have hsent := hpaging.followed_sublist (fun e he => ?_) hfirst
      · exact hall ▸ hsent
      · rcases resumesVersions_received url he with ⟨_, hsame⟩ | ⟨⟨hurl, k, hk, hreturn⟩, _⟩
        · exact hsame
        · exact absurd hreturn (hplain.resolve_left (by simp [hurl]) e he k hk)
    · have hiff := hpaging.composes_iff hfirst
      rw [show cutAfter (Entry.name word) _ none = listing from hall] at hiff
      exact hiff.trans (whole_versions_iff hrows rfl)

theorem version_pages_lose_key : ∃ b pages, Yields (bucketIdOf Context.sample "bucket".toList)
        (bucketOf ["a/1", "a0", "a0", "b"]) b (bucketOf ["a/1", "a0", "a0", "b"]) ∧
      Followed (fetchVersions Context.sample "bucket".toList (bucketOf ["a/1", "a0", "a0", "b"]))
        ⟨[], some ['/'], none, none, 1, false⟩ pages ∧
      (∃ o ∈ bucketRows (bucketOf ["a/1", "a0", "a0", "b"]) b, o.key = "a0".toList) ∧
      ∀ e ∈ pages.flatten, e.key ≠ some "a0".toList := by
  have hfind : ((bucketOf ["a/1", "a0", "a0", "b"]).bucket.rows.find? fun b =>
      b.name = "bucket".toList ∧ Context.sample.hasRole Context.sample.actor b.owner).any
        (fun row => (bucketRows (bucketOf ["a/1", "a0", "a0", "b"]) row.bucketId).any
          fun o => o.key = "a0".toList) = true := by
    decide +kernel
  have hpages : ((follow (fetchVersions Context.sample "bucket".toList
      (bucketOf ["a/1", "a0", "a0", "b"])) 4 ⟨[], some ['/'], none, none, 1, false⟩).any
        fun pages => pages.flatten.all fun e => e.key ≠ some "a0".toList) = true := by
    decide +kernel
  obtain ⟨row, hrow, hkey⟩ := (Option.any_eq_true _ _).mp hfind
  obtain ⟨pages, hfollow, hall⟩ := (Option.any_eq_true _ _).mp hpages
  refine ⟨row.bucketId, pages, yields_sampleBucket hrow, followed_of_follow hfollow, ?_, ?_⟩
  · simpa using hkey
  · exact fun e he => of_decide_eq_true (List.all_eq_true.mp hall e he)

/-- With pages of two entries the common prefix does not end a page, and nothing is lost. -/
theorem version_pages_complete_adjacent :
    ∃ b, (referenceVersions (bucketRows (bucketOf ["a/1", "a0", "a0", "b"]) b) []
        (some ['/'])).map entryKey = ["a/".toList, "a0".toList, "a0".toList, "b".toList] ∧
      Composes (fetchVersions Context.sample "bucket".toList (bucketOf ["a/1", "a0", "a0", "b"]))
        (List.map VersionEntry.shown) (isVersionListTruncated 2)
        ⟨[], some ['/'], none, none, 2, true⟩
        ((referenceVersions (bucketRows (bucketOf ["a/1", "a0", "a0", "b"]) b) []
          (some ['/'])).map fun e => (showVersion e).shown) := by
  have hfind : ((bucketOf ["a/1", "a0", "a0", "b"]).bucket.rows.find? fun b =>
      b.name = "bucket".toList ∧ Context.sample.hasRole Context.sample.actor b.owner).any
        (fun row => (referenceVersions (bucketRows (bucketOf ["a/1", "a0", "a0", "b"])
          row.bucketId) [] (some ['/'])).map entryKey
            = ["a/".toList, "a0".toList, "a0".toList, "b".toList]) = true := by
    decide +kernel
  obtain ⟨row, hrow, hkeys⟩ := (Option.any_eq_true _ _).mp hfind
  have hkeys := of_decide_eq_true hkeys
  rcases version_pages_complete_iff (yields_sampleBucket hrow) [] (some ['/']) (n := 2)
    (by decide) true with h | ⟨_, _, h⟩
  · exact absurd h.1 (by decide)
  · refine ⟨row.bucketId, hkeys, (h (Or.inl rfl)).2.mpr fun j => ⟨?_, Or.inl rfl⟩⟩
    rintro ⟨common, e, hgroup, hnext, hend⟩
    have hgroup' := congrArg (Option.map entryKey) hgroup
    have hnext' := congrArg (Option.map entryKey) hnext
    rw [← List.getElem?_map] at hgroup' hnext'
    change (List.map entryKey (referenceVersions (bucketRows _ row.bucketId) []
      (some ['/'])))[_]? = _ at hgroup' hnext'
    rw [hkeys] at hgroup' hnext'
    cases j with
    | zero =>
      have hcommon : "a0".toList = common := by
        simpa [entryKey] using Option.some.inj hgroup'
      have hkey : "a0".toList = entryKey e := Option.some.inj hnext'
      rw [← hcommon, ← hkey] at hend
      exact absurd hend (by decide)
    | succ j =>
      rw [List.getElem?_eq_none (by simp only [List.length_cons, List.length_nil]; omega)]
        at hnext'
      cases hnext'

end Pgs3
