import Pgs3.Foundation.Listing
import Pgs3.Latest
import Pgs3.Listing

/-!
# What a client sees that follows a listing

The reference listing rolls the live keys up in the obvious way.  The skip scan of `list`
returns its first entries, and whoever follows `NextContinuationToken` to the end sees all
of it, each entry once.  Whoever follows `NextMarker` does so as long as the marker comes
through the XML document unchanged; a carriage return in it does not.

The order theory is in `Foundation.PrefixOrder` and `Foundation.Listing`; here the texts,
the rollup and the cursors of the code are shown to be instances of it.
-/

namespace Pgs3

open Foundation Foundation.Tx

variable {n : Nat} {k key : Text} {t : ContinuationToken} {e : Entry Char ObjectRow}
  {l : List (Entry Char ObjectRow)} {v2 : Bool}

/-! ## 1. Prefixes of texts -/

/-- The next character in code-point order. -/
def nextChar (c : Char) : Option Char :=
  if ascii c < 1114111 then some (Char.ofNat (if ascii c = 55295 then 57344 else ascii c + 1))
  else none

theorem ascii_valid (c : Char) : ascii c < 55296 ∨ 57343 < ascii c ∧ ascii c < 1114112 :=
  c.valid

variable {a : Char}

theorem lt_iff_ascii {b : Char} : a < b ↔ ascii a < ascii b := UInt32.lt_iff_toNat_lt

theorem le_iff_ascii {b : Char} : a ≤ b ↔ ascii a ≤ ascii b := UInt32.le_iff_toNat_le

theorem ascii_ofNat (h : n.isValidChar) : ascii (Char.ofNat n) = n := by
  unfold Char.ofNat
  rw [dif_pos h]
  rfl

theorem nextChar_isSuccessor : IsSuccessor nextChar where
  lt_iff := by
    intro a b h x
    unfold nextChar at h
    split at h
    · rename_i hlt
      obtain rfl := Option.some.inj h
      have ha := ascii_valid a
      have hx := ascii_valid x
      rw [lt_iff_ascii, le_iff_ascii, ascii_ofNat]
      · split <;> omega
      · show _ ∨ _
        split <;> omega
    · exact absurd h (by simp)
  top := by
    intro a h x
    unfold nextChar at h
    split at h
    · exact absurd h (by simp)
    · have hx := ascii_valid x
      rw [le_iff_ascii]
      omega

theorem prefixEndLoop_eq (p : Text) {i : Nat} (h : i ≤ p.length) :
    prefixEndLoop p i = endOfPrefix nextChar (p.take i) := by
  induction i with
  | zero => rfl
  | succ i ih =>
    have hi : i < p.length := h
    rw [List.take_add_one, List.getElem?_eq_getElem hi, Option.toList_some,
      endOfPrefix_append_singleton, prefixEndLoop, List.getElem?_eq_getElem hi]
    by_cases hlt : ascii p[i] < 1114111
    · simp only [nextChar, hlt, if_true]
    · simp only [nextChar, hlt, if_false]
      exact ih (Nat.le_of_lt hi)

theorem prefixEnd_eq (p : Text) : prefixEnd p = endOfPrefix nextChar p := by
  unfold prefixEnd
  split
  · rename_i h
    rw [h]
    rfl
  · rw [prefixEndLoop_eq p (Nat.le_refl _), List.take_length]

/-- **The range of a prefix.** -/
theorem prefix_range {p : Text} : p <+: k ↔ p ≤ k ∧ below (prefixEnd p) k = true := by
  rw [isPrefix_iff nextChar_isSuccessor, prefixEnd_eq]
  unfold below
  cases endOfPrefix nextChar p <;> simp

theorem below_eq_false {upper : Option Text} :
    below upper key = false ↔ ∃ u, upper = some u ∧ u ≤ key := by
  unfold below
  cases upper <;> simp

theorem lt_of_stop {p : Text} (hp : p <+: k) (h : below (prefixEnd p) key = false) : k < key := by
  obtain ⟨u, hu, hle⟩ := below_eq_false.mp h
  have hlt := (prefix_range.mp hp).2
  simp only [below, hu, Option.all_some, decide_eq_true_eq] at hlt
  exact lt_of_lt_of_le hlt hle

theorem prefixEnd_le_iff {p : Text} : (∃ u, prefixEnd p = some u ∧ u ≤ k) ↔ p ≤ k ∧ ¬ p <+: k := by
  rw [← below_eq_false]
  constructor
  · intro hbelow
    obtain ⟨u, hu, hle⟩ := below_eq_false.mp hbelow
    -- the prefix itself is before the end of its range
    have hpu := (prefix_range.mp (List.prefix_refl p)).2
    simp only [below, hu, Option.all_some, decide_eq_true_eq] at hpu
    refine ⟨le_trans (le_of_lt hpu) hle, fun hpre => ?_⟩
    rw [(prefix_range.mp hpre).2] at hbelow
    exact absurd hbelow (by simp)
  · rintro ⟨hle, hpre⟩
    by_contra hbelow
    exact hpre (prefix_range.mpr ⟨hle, Bool.not_eq_false _ ▸ hbelow⟩)

/-- The loop of `_prefix_end` on numbers that need not be characters. -/
def codePointsEndLoop (p : List Nat) : Nat → Option (List Nat)
  | 0 => none
  | i + 1 =>
      match p[i]? with
      | none => none
      | some cp =>
          if cp < 1114111 then
            some (p.take i ++ [if cp = 55295 then 57344 else cp + 1])
          else codePointsEndLoop p i

/-- What `_prefix_end` hands to `chr`, in place of the text it returns. -/
def codePointsEnd (p : List Nat) : Option (List Nat) :=
  if p = [] then none else codePointsEndLoop p p.length

theorem isValidChar_next {c : Char} (h : ascii c < 1114111) :
    (if ascii c = 55295 then 57344 else ascii c + 1).isValidChar := by
  have hc := ascii_valid c
  change _ ∨ _
  split <;> omega

theorem codePointsEndLoop_map (p : Text) (i : Nat) :
    codePointsEndLoop (p.map ascii) i = (prefixEndLoop p i).map (List.map ascii) := by
  induction i with
  | zero => rfl
  | succ i ih =>
    rw [codePointsEndLoop, prefixEndLoop, List.getElem?_map]
    cases hch : p[i]? with
    | none => rfl
    | some ch =>
      by_cases hlt : ascii ch < 1114111
      · simp only [Option.map_some, hlt, if_true, List.map_append, List.map_take, List.map_cons,
          List.map_nil, ascii_ofNat (isValidChar_next hlt)]
      · simp only [Option.map_some, hlt, if_false, ih]

theorem codePointsEnd_map (p : Text) :
    codePointsEnd (p.map ascii) = (prefixEnd p).map (List.map ascii) := by
  unfold codePointsEnd prefixEnd
  cases p with
  | nil => rfl
  | cons c p =>
    rw [if_neg (by simp), if_neg (by simp), codePointsEndLoop_map, List.length_map]

theorem nextChar_eq_none {c : Char} : nextChar c = none ↔ ascii c = 0x10FFFF := by
  have hc := ascii_valid c
  unfold nextChar
  split
  · simp only [reduceCtorEq, false_iff]
    omega
  · simp only [true_iff]
    omega

/-- **The successor of a prefix**: with the least text after the prefix, a text has the prefix
    exactly when it is in the range; the numbers that are computed are those of a text; and
    there is no successor exactly when every character is the greatest one. -/
theorem prefixEnd_spec (p : Text) : (∀ k : Text, p <+: k ↔
      p ≤ k ∧ (prefixEnd p = none ∨ ∃ upper, prefixEnd p = some upper ∧ k < upper))
    ∧ codePointsEnd (p.map ascii) = (prefixEnd p).map (List.map ascii)
    ∧ (prefixEnd p = none ↔ ∀ c ∈ p, ascii c = 0x10FFFF) := by
  refine ⟨?_, codePointsEnd_map p, ?_⟩
  · intro k
    rw [prefix_range, below]
    cases prefixEnd p <;> simp
  · rw [prefixEnd_eq, endOfPrefix_eq_none]
    simp only [nextChar_eq_none]

/-! ## 2. Ends of lines -/

theorem normalizeEol_return (t : Text) : ∃ rest, normalizeEol ('\r' :: t) = '\n' :: rest := by
  rw [normalizeEol, if_pos rfl]
  split
  · rename_i hhead
    obtain ⟨rest, rfl⟩ := List.head?_eq_some_iff.mp hhead
    exact ⟨_, normalizeEol_cons_of_ne (by decide) rest⟩
  · exact ⟨_, rfl⟩

/-- A text with a carriage return is received as a lesser one. -/
theorem normalizeEol_lt (h : '\r' ∈ k) : normalizeEol k < k := by
  induction k with
  | nil => exact absurd h List.not_mem_nil
  | cons c k ih =>
    by_cases hc : c = '\r'
    · obtain ⟨rest, hrest⟩ := normalizeEol_return k
      rw [hc, hrest]
      exact lex_cons_lt_cons.mpr (Or.inl (by decide))
    · rw [normalizeEol_cons_of_ne hc]
      exact lex_cons_lt_cons.mpr
        (Or.inr ⟨rfl, ih ((List.mem_cons.mp h).resolve_left (Ne.symm hc))⟩)

/-- Received, the end of a prefix with a carriage return comes before the prefix itself. -/
theorem normalizeEol_prefixEnd_lt {p : Text} (hk : prefixEnd p = some k) (h : '\r' ∈ k) :
    normalizeEol k < p := by
  rw [prefixEnd_eq] at hk
  induction p generalizing k with
  | nil => cases hk
  | cons a p ih =>
    rw [endOfPrefix] at hk
    split at hk
    · rename_i rest hend
      cases hk
      by_cases ha : a = '\r'
      · obtain ⟨t, ht⟩ := normalizeEol_return rest
        rw [ha, ht]
        exact lex_cons_lt_cons.mpr (Or.inl (by decide))
      · rw [normalizeEol_cons_of_ne ha]
        exact lex_cons_lt_cons.mpr
          (Or.inr ⟨rfl, ih hend ((List.mem_cons.mp h).resolve_left (Ne.symm ha))⟩)
    · obtain ⟨b, hb, rfl⟩ := Option.map_eq_some_iff.mp hk
      obtain rfl := List.mem_singleton.mp h
      -- the character before a carriage return is after a line feed
      have hlt : '\n' < a := lt_of_lt_of_le (by decide : '\n' < Char.ofNat 12)
        ((nextChar_isSuccessor.lt_iff hb (Char.ofNat 12)).mp (by decide))
      exact lex_cons_lt_cons.mpr (Or.inl hlt)

/-! ## 3. The rollup -/

theorem strpos_of_isPrefix {s d : Text} (h : d <+: s) : strpos s d = 1 := by
  cases s with
  | nil => rw [strpos, if_pos (List.prefix_nil.mp h)]
  | cons a t => rw [strpos, if_pos (List.isPrefixOf_iff_prefix.mpr h)]

theorem strpos_cons {t d : Text} (h : ¬ d <+: a :: t) :
    strpos (a :: t) d = n + 1 ↔ ∃ m, n = m + 1 ∧ strpos t d = m + 1 := by
  rw [strpos, if_neg (mt List.isPrefixOf_iff_prefix.mp h)]
  cases strpos t d with
  | zero => simp
  | succ m =>
    constructor
    · intro hpos
      exact ⟨m, (Nat.succ.inj hpos).symm, rfl⟩
    · rintro ⟨m', rfl, hm⟩
      rw [Nat.succ.inj hm]

/-- `strpos` finds the first place where the delimiter stands. -/
theorem strpos_iff {s d : Text} :
    strpos s d = n + 1 ↔ n + d.length ≤ s.length ∧ d <+: s.drop n ∧ ∀ i < n, ¬ d <+: s.drop i := by
  induction s generalizing n with
  | nil =>
    rw [strpos]
    cases n <;> cases d <;> simp
  | cons a t ih =>
    by_cases hd : d <+: a :: t
    · rw [strpos_of_isPrefix hd]
      constructor
      · rintro ⟨⟩
        exact ⟨by simpa using hd.length_le, hd, fun i hi => absurd hi (Nat.not_lt_zero i)⟩
      · rintro ⟨_, _, hfirst⟩
        by_contra hn
        exact hfirst 0 (by omega) hd
    · rw [strpos_cons hd]
      cases n with
      | zero => simpa using fun _ h => absurd h hd
      | succ n =>
        simp only [Nat.succ.injEq, exists_eq_left', ih, Nat.forall_lt_succ_left, List.drop_succ_cons,
          List.drop_zero, hd, not_false_eq_true, true_and, List.length_cons]
        exact and_congr_left fun _ => by omega

theorem isPrefix_drop_take {s d : Text} {i m : Nat} (h : i + d.length ≤ m) :
    d <+: (s.take m).drop i ↔ d <+: s.drop i := by
  rw [List.drop_take, List.prefix_take_iff, and_iff_left (by omega)]

/-- Any text that goes on like `s` up to the end of its first delimiter has its first
    delimiter there. -/
theorem strpos_congr {s s' d : Text} (h : strpos s d = n + 1)
    (hs : s'.take (n + d.length) = s.take (n + d.length)) : strpos s' d = n + 1 := by
  obtain ⟨hlen, hd, hfirst⟩ := strpos_iff.mp h
  have hsame : ∀ i ≤ n, d <+: s'.drop i ↔ d <+: s.drop i := by
    intro i hi
    rw [← isPrefix_drop_take (m := n + d.length) (by omega), hs, isPrefix_drop_take (by omega)]
  have hlength := congrArg List.length hs
  simp only [List.length_take] at hlength
  refine strpos_iff.mpr ⟨by omega, (hsame n (le_refl n)).mpr hd, fun i hi => ?_⟩
  rw [hsame i (le_of_lt hi)]
  exact hfirst i hi

theorem commonPrefixOf_eq_some {p d c : Text} : commonPrefixOf p d key = some c ↔
      ∃ n, strpos (key.drop p.length) d = n + 1 ∧
        c = p ++ (key.drop p.length).take (n + d.length) := by
  simp only [commonPrefixOf]
  cases strpos (key.drop p.length) d with
  | zero => simp
  | succ n =>
    constructor
    · intro h
      exact ⟨n, rfl, (Option.some.inj h).symm⟩
    · rintro ⟨m, hm, rfl⟩
      rw [Nat.succ.inj hm]

theorem commonPrefixOf_isPrefix {p d c : Text} (hp : p <+: key)
    (h : commonPrefixOf p d key = some c) : p <+: c ∧ c <+: key := by
  obtain ⟨n, _, rfl⟩ := commonPrefixOf_eq_some.mp h
  refine ⟨List.prefix_append _ _, ?_⟩
  obtain ⟨suffix, rfl⟩ := hp
  rw [List.drop_left]
  exact (List.prefix_append_right_inj p).mpr (List.take_prefix _ _)

theorem commonPrefixOf_congr {p d key' c : Text} (h : commonPrefixOf p d key = some c)
    (hc : c <+: key') : commonPrefixOf p d key' = some c := by
  obtain ⟨n, hn, rfl⟩ := commonPrefixOf_eq_some.mp h
  obtain ⟨tail, rfl⟩ := hc
  -- both texts go on alike up to the end of the delimiter
  have hsame : ((key.drop p.length).take (n + d.length) ++ tail).take (n + d.length)
      = (key.drop p.length).take (n + d.length) :=
    List.take_left' (List.length_take_of_le (strpos_iff.mp hn).1)
  rw [commonPrefixOf_eq_some, List.append_assoc, List.drop_left]
  exact ⟨n, strpos_congr hn hsame, by rw [hsame]⟩

/-- Keys with the prefix, grouped by what follows it up to the first delimiter. -/
def rollup (p : Text) (delimiter : Option Text) : Grouping Char where
  group key := if p <+: key then delimiter.bind fun d => commonPrefixOf p d key else none
  isPrefix := by
    intro key c h
    rw [Option.ite_none_right_eq_some] at h
    obtain ⟨hp, h⟩ := h
    obtain ⟨d, _, h⟩ := Option.bind_eq_some_iff.mp h
    exact (commonPrefixOf_isPrefix hp h).2
  closed := by
    intro key c key' h hc
    rw [Option.ite_none_right_eq_some] at h ⊢
    obtain ⟨hp, h⟩ := h
    obtain ⟨d, hd, h⟩ := Option.bind_eq_some_iff.mp h
    refine ⟨(commonPrefixOf_isPrefix hp h).1.trans hc, ?_⟩
    exact Option.bind_eq_some_iff.mpr ⟨d, hd, commonPrefixOf_congr h hc⟩

theorem rollup_group {p : Text} {d : Text} (hp : p <+: key) :
    (rollup p (some d)).group key = commonPrefixOf p d key := by
  simp only [rollup, hp, if_true, Option.bind_some]

theorem isPrefix_of_rollup {p : Text} {delimiter : Option Text} {c : Text}
    (h : (rollup p delimiter).group key = some c) : p <+: c := by
  simp only [rollup, Option.ite_none_right_eq_some] at h
  obtain ⟨hp, h⟩ := h
  obtain ⟨d, _, h⟩ := Option.bind_eq_some_iff.mp h
  exact (commonPrefixOf_isPrefix hp h).1

/-- The common prefix of a key: through the delimiter that stands first behind the prefix. -/
def RollsTo (p : Text) (delimiter : Option Text) (key common : Text) : Prop :=
  ∃ d, delimiter = some d ∧ d ≠ [] ∧ ∃ before rest, key = p ++ (before ++ d ++ rest) ∧
    common = p ++ (before ++ d) ∧ ∀ i < before.length, ¬ d <+: (before ++ d ++ rest).drop i

/-- The latest version of a key with the prefix, and no delete marker. -/
def IsLive (b : Nat) (p : Text) (o : ObjectRow) : Prop :=
  o.bucketId = b ∧ o.isLatest = true ∧ o.deleteMarker = false ∧ p <+: o.key

/-- **The reference listing** of a bucket.  In strict order it has each live key after the
    marker that has no common prefix, and each common prefix of live keys that is after the
    marker. -/
structure IsListing (rows : List ObjectRow) (b : Nat) (p : Text) (delimiter marker : Option Text)
    (l : List (Entry Char ObjectRow)) : Prop where
  sorted : l.Pairwise fun e e' => e.name ObjectRow.key < e'.name ObjectRow.key
  item : ∀ o, .item o ∈ l ↔ o ∈ rows ∧ IsLive b p o ∧ (∀ m, marker = some m → m < o.key) ∧
    ∀ common, ¬ RollsTo p delimiter o.key common
  group : ∀ common, .group common ∈ l ↔
    (∃ o ∈ rows, IsLive b p o ∧ RollsTo p delimiter o.key common) ∧
      ∀ m, marker = some m → m < common

theorem rollup_group_iff {p common : Text} {delimiter : Option Text} (hp : p <+: key) :
    (rollup p (delimiter.filter fun d => d ≠ [])).group key = some common ↔
      RollsTo p delimiter key common := by
  obtain ⟨s, rfl⟩ := hp
  simp only [rollup, List.prefix_append, if_true, Option.bind_eq_some_iff, Option.filter_eq_some_iff,
    commonPrefixOf_eq_some, List.drop_left, RollsTo, decide_eq_true_eq, List.append_cancel_left_eq]
  constructor
  · rintro ⟨d, ⟨hdel, hd⟩, n, hn, rfl⟩
    obtain ⟨hlen, ⟨rest, hrest⟩, hfirst⟩ := strpos_iff.mp hn
    have hbefore : (s.take n).length = n := List.length_take_of_le (by omega)
    have hs : s = s.take n ++ d ++ rest := by
      rw [List.append_assoc, hrest, List.take_append_drop]
    refine ⟨d, hdel, hd, s.take n, rest, hs, ?_, ?_⟩
    · conv_lhs => rw [hs]
      rw [List.take_left' (by rw [List.length_append, hbefore])]
    · rw [← hs, hbefore]
      exact hfirst
  · rintro ⟨d, hdel, hd, before, rest, rfl, rfl, hfirst⟩
    refine ⟨d, ⟨hdel, hd⟩, before.length, strpos_iff.mpr ⟨by simp, by simp, hfirst⟩, ?_⟩
    rw [← List.length_append, List.take_left]

/-! ## 4. Cursors -/

def nextCursor : Entry Char ObjectRow → Cursor
  | .item o => ⟨some o.key, false⟩
  | .group common => ⟨prefixEnd common, true⟩

/-- **The cursor after an entry selects the keys beyond it.** -/
theorem nextCursor_admits {p : Text} {delimiter : Option Text} (o : ObjectRow) :
    (nextCursor ((rollup p delimiter).entry ObjectRow.key o)).admits key = true ↔
      (rollup p delimiter).Beyond
        (((rollup p delimiter).entry ObjectRow.key o).name ObjectRow.key) key := by
  cases hg : (rollup p delimiter).group o.key with
  | none =>
    rw [Grouping.entry_of_none hg]
    simp [nextCursor, Cursor.admits, Entry.name, Grouping.Beyond, hg]
  | some common =>
    rw [Grouping.entry_of_some hg]
    have hadmits : (nextCursor (.group common)).admits key = true ↔
        common ≤ key ∧ ¬ common <+: key := by
      rw [← prefixEnd_le_iff]
      simp only [nextCursor, Cursor.admits]
      cases prefixEnd common <;> simp
    rw [hadmits]
    simp only [Entry.name, Grouping.Beyond, Grouping.group_self hg, Option.some.injEq,
      forall_eq']
    constructor
    · rintro ⟨hle, hpre⟩
      refine ⟨lt_of_le_of_ne hle ?_, hpre⟩
      rintro rfl
      exact hpre (List.prefix_refl _)
    · rintro ⟨hlt, hpre⟩
      exact ⟨le_of_lt hlt, hpre⟩

/-- The scan of a prefix never looks before it. -/
def Cursor.From (c : Cursor) (p : Text) : Prop := ∀ seek, c.seek = some seek → p ≤ seek

theorem nextCursor_from {p : Text} (delimiter : Option Text) {o : ObjectRow} (hp : p <+: o.key) :
    (nextCursor ((rollup p delimiter).entry ObjectRow.key o)).From p := by
  intro seek hseek
  cases hg : (rollup p delimiter).group o.key with
  | none =>
    rw [Grouping.entry_of_none hg] at hseek
    rw [← Option.some.inj hseek]
    exact le_of_isPrefix hp
  | some common =>
    rw [Grouping.entry_of_some hg] at hseek
    have hlt := (prefix_range.mp (List.prefix_refl common)).2
    have hseek : prefixEnd common = some seek := hseek
    simp only [below, hseek, Option.all_some, decide_eq_true_eq] at hlt
    exact le_trans (le_of_isPrefix (isPrefix_of_rollup hg)) (le_of_lt hlt)

theorem Cursor.admits_mono {c : Cursor} {k' : Text} (h : c.admits k = true) (hle : k ≤ k') :
    c.admits k' = true := by
  unfold Cursor.admits at h ⊢
  cases hs : c.seek with
  | none =>
    rw [hs] at h
    exact absurd h (by simp)
  | some seek =>
    rw [hs] at h
    cases hi : c.inclusive with
    | true =>
      simp only [hi, if_true, decide_eq_true_eq] at h ⊢
      exact le_trans h hle
    | false =>
      simp only [hi, Bool.false_eq_true, if_false, decide_eq_true_eq] at h ⊢
      exact lt_of_lt_of_le h hle

theorem Cursor.le_of_admits {c : Cursor} {seek : Text} (h : c.admits k = true)
    (hs : c.seek = some seek) : seek ≤ k := by
  unfold Cursor.admits at h
  rw [hs] at h
  cases hi : c.inclusive with
  | true => simpa [hi] using h
  | false => exact le_of_lt (by simpa [hi] using h)

/-! ## 5. The scan -/

def after (marker : Option Text) (name : Text) : Bool := marker.all fun m => m < name

/-- Common prefixes that are not greater than the marker are dropped. -/
def kept (marker : Option Text) : Entry Char ObjectRow → Bool
  | .item _ => true
  | .group common => after marker common

theorem kept_none : kept none = fun _ => true := by
  funext e
  cases e <;> rfl

def keyScan (p : Text) (delimiter : Option Text) :
    Scan (rollup p delimiter) ObjectRow.key Cursor where
  admits c o := c.admits o.key
  next := nextCursor
  admits_mono h hlt := Cursor.admits_mono h (le_of_lt hlt)
  next_admits o _ := nextCursor_admits o

def withPrefix (rows : List ObjectRow) (p : Text) : List ObjectRow :=
  rows.filter fun o => p <+: o.key

theorem mem_withPrefix {rows : List ObjectRow} {p : Text} {o : ObjectRow} :
    o ∈ withPrefix rows p ↔ o ∈ rows ∧ p <+: o.key := by
  simp [withPrefix]

abbrev selected (live : List ObjectRow) (p : Text) (delimiter : Option Text) (c : Cursor) :
    List ObjectRow :=
  (keyScan p delimiter).selected (withPrefix live p) c

abbrev left (live : List ObjectRow) (p : Text) (delimiter : Option Text) (c : Cursor) :
    List (Entry Char ObjectRow) :=
  (keyScan p delimiter).left (withPrefix live p) c

section Scan

variable {live : List ObjectRow} {p : Text} {delimiter : Option Text} {c : Cursor} {o : ObjectRow}

theorem withPrefix_nodup (hlive : (live.map ObjectRow.key).Nodup) (p : Text) :
    ((withPrefix live p).map ObjectRow.key).Nodup :=
  hlive.sublist (List.filter_sublist.map _)

theorem rangeRows_eq (delimiter : Option Text) (hc : c.From p) :
    rangeRows live (prefixEnd p) c = orderBy ObjectRow.key (selected live p delimiter c) := by
  unfold rangeRows selected Scan.selected withPrefix
  rw [List.filter_filter]
  congr 1
  apply List.filter_congr
  intro o _
  rw [Bool.eq_iff_iff, Bool.and_eq_true, Bool.and_eq_true, decide_eq_true_iff, prefix_range]
  constructor
  · rintro ⟨hadm, hbelow⟩
    refine ⟨hadm, ?_, hbelow⟩
    cases hs : c.seek with
    | none => exact absurd hadm (by simp [Cursor.admits, hs])
    | some seek => exact le_trans (hc seek hs) (c.le_of_admits hadm hs)
  · rintro ⟨hadm, _, hbelow⟩
    exact ⟨hadm, hbelow⟩

/-- **A turn of the loop.**  The key that the index finds gives the first entry; the cursor
    after it leaves the others, and fewer rows. -/
theorem scan_step (hlive : (live.map ObjectRow.key).Nodup) (delimiter : Option Text)
    (hc : c.From p) (ho : (rangeRows live (prefixEnd p) c).head? = some o) :
    let e := (rollup p delimiter).entry ObjectRow.key o
    o ∈ withPrefix live p ∧
      left live p delimiter c = e :: left live p delimiter (nextCursor e) ∧
      (selected live p delimiter (nextCursor e)).length
        < (selected live p delimiter c).length := by
  rw [rangeRows_eq delimiter hc] at ho
  have hsorted := orderBy_pairwise ObjectRow.key (selected live p delimiter c)
  obtain ⟨rest, hrest⟩ := List.head?_eq_some_iff.mp ho
  have hmem : o ∈ selected live p delimiter c := by
    rw [← mem_orderBy ObjectRow.key, hrest]
    exact List.mem_cons_self
  have hmin : ∀ o' ∈ selected live p delimiter c, o.key ≤ o'.key := by
    intro o' ho'
    rw [← mem_orderBy ObjectRow.key, hrest] at ho'
    rw [hrest, List.pairwise_cons] at hsorted
    rcases List.mem_cons.mp ho' with rfl | ho'
    · exact le_refl _
    · exact hsorted.1 o' ho'
  exact ⟨(Scan.mem_selected.mp hmem).1, Scan.left_step (withPrefix_nodup hlive p) hmem hmin⟩

end Scan

/-! ## 6. A page -/

def showEntry (token : Option ContinuationToken) : Entry Char ObjectRow → ListEntry
  | .item o => objectEntry o token
  | .group common => commonPrefixEntry common token

def tokenAfter (r : ListRequest) (e : Entry Char ObjectRow) : Option ContinuationToken :=
  (nextCursor e).seek.map fun seek =>
    makeListToken r.bucket r.effectivePrefix r.effectiveDelimiter seek (nextCursor e).inclusive

/-- The first entries of a listing, the last of a full page with its token. -/
def pageOf (r : ListRequest) : Nat → List (Entry Char ObjectRow) → List ListEntry
  | 0, _ => []
  | _ + 1, [] => []
  | n + 1, e :: es => showEntry (if n = 0 then tokenAfter r e else none) e :: pageOf r n es

theorem listLoop_stop {r : ListRequest} {d : Text} {live : List ObjectRow} {fuel emitted : Nat}
    {c : Cursor} (h : r.maxKeys ≤ emitted ∨ c.seek = none ∨
      ∃ seek ∈ c.seek, below (prefixEnd r.effectivePrefix) seek = false) :
    listLoop r d live (fuel + 1) emitted c = .ok [] := by
  simp only [listLoop, if_pos h]

theorem left_of_stop {live : List ObjectRow} {p : Text} {delimiter : Option Text} {c : Cursor}
    (h : c.seek = none ∨ ∃ seek ∈ c.seek, below (prefixEnd p) seek = false) :
    left live p delimiter c = [] := by
  apply Scan.left_eq_nil
  intro o ho
  by_contra hadm
  have hadm : c.admits o.key = true := Bool.not_eq_false _ ▸ hadm
  have hp := (mem_withPrefix.mp ho).2
  rcases h with hnone | ⟨seek, hseek, hbelow⟩
  · simp [Cursor.admits, hnone] at hadm
  · exact absurd (c.le_of_admits hadm hseek) (not_le_of_gt (lt_of_stop hp hbelow))

variable {marker : Option Text}

theorem kept_iff {common : Text} :
    kept marker (.group common) = false ↔ ∃ m ∈ marker, common ≤ m := by
  cases marker <;> simp [kept, after]

section Turn

variable {r : ListRequest} {d : Text} {live : List ObjectRow} {fuel emitted : Nat} {c : Cursor}
  {o : ObjectRow} {common : Text}

def turnToken (r : ListRequest) (emitted : Nat) (e : Entry Char ObjectRow) :
    Option ContinuationToken :=
  if (emitted : Int) + 1 = r.maxKeys then tokenAfter r e else none

variable (hgo : ¬ (r.maxKeys ≤ emitted ∨ c.seek = none ∨
    ∃ seek ∈ c.seek, below (prefixEnd r.effectivePrefix) seek = false))
  (ho : (rangeRows live (prefixEnd r.effectivePrefix) c).head? = some o)

include hgo ho

theorem listLoop_dropped (hg : commonPrefixOf r.effectivePrefix d o.key = some common)
    (hdrop : ∃ m ∈ r.startAfter, common ≤ m) : listLoop r d live (fuel + 1) emitted c
      = listLoop r d live fuel emitted (nextCursor (.group common)) := by
  simp only [listLoop, hgo, if_false, ho, hg, hdrop, if_true, nextCursor]

theorem listLoop_group (hd : r.effectiveDelimiter = some d)
    (hg : commonPrefixOf r.effectivePrefix d o.key = some common)
    (hkeep : ¬ ∃ m ∈ r.startAfter, common ≤ m) : listLoop r d live (fuel + 1) emitted c
      = (listLoop r d live fuel (emitted + 1) (nextCursor (.group common))).map fun rest =>
          showEntry (turnToken r emitted (.group common)) (.group common) :: rest := by
  have htoken : ((prefixEnd common).bind fun seek =>
      if (emitted : Int) + 1 = r.maxKeys then
        some (makeListToken r.bucket r.effectivePrefix (some d) seek true) else none)
      = turnToken r emitted (.group common) := by
    simp only [turnToken, tokenAfter, nextCursor, hd]
    cases prefixEnd common <;> split <;> rfl
  simp only [listLoop, hgo, if_false, ho, hg, hkeep, htoken, nextCursor, showEntry]
  rfl

theorem listLoop_item (hd : r.effectiveDelimiter = some d) (hlive : (live.map ObjectRow.key).Nodup)
    (hmem : o ∈ live) (hg : commonPrefixOf r.effectivePrefix d o.key = none) :
    listLoop r d live (fuel + 1) emitted c
      = (listLoop r d live fuel (emitted + 1) (nextCursor (.item o))).map fun rest =>
          showEntry (turnToken r emitted (.item o)) (.item o) :: rest := by
  simp only [listLoop, hgo, if_false, ho, hg, filter_key_eq hlive hmem, strictRow, nextCursor,
    showEntry, turnToken, tokenAfter, hd, Option.map_some]
  rfl

end Turn

/-- **The loop lists what is left.** -/
theorem listLoop_eq {r : ListRequest} {d : Text} (hd : r.effectiveDelimiter = some d)
    {live : List ObjectRow} (hlive : (live.map ObjectRow.key).Nodup) {fuel emitted : Nat}
    {c : Cursor} (hc : c.From r.effectivePrefix)
    (hfuel : (selected live r.effectivePrefix (some d) c).length < fuel) :
    listLoop r d live fuel emitted c = .ok (pageOf r (r.maxKeys.toNat - emitted)
      ((left live r.effectivePrefix (some d) c).filter (kept r.startAfter))) := by
  induction fuel generalizing emitted c with
  | zero => omega
  | succ fuel ih =>
    by_cases hfull : r.maxKeys ≤ emitted
    · rw [listLoop_stop (Or.inl hfull), show r.maxKeys.toNat - emitted = 0 by omega]
      rfl
    obtain ⟨n, hn⟩ := Nat.exists_eq_succ_of_ne_zero (show r.maxKeys.toNat - emitted ≠ 0 by omega)
    have hrest : r.maxKeys.toNat - (emitted + 1) = n := by omega
    have hlast : ((emitted : Int) + 1 = r.maxKeys) ↔ n = 0 := by omega
    by_cases hstop : c.seek = none ∨
        ∃ seek ∈ c.seek, below (prefixEnd r.effectivePrefix) seek = false
    · rw [listLoop_stop (Or.inr hstop), left_of_stop hstop, hn]
      rfl
    have hgo := not_or.mpr ⟨hfull, hstop⟩
    cases hhead : (rangeRows live (prefixEnd r.effectivePrefix) c).head? with
    | none =>
      have hnil : left live r.effectivePrefix (some d) c = [] := by
        rw [rangeRows_eq (some d) hc, List.head?_eq_none_iff] at hhead
        apply Scan.left_eq_nil
        intro o ho
        by_contra hadm
        have hmem : o ∈ selected live r.effectivePrefix (some d) c :=
          Scan.mem_selected.mpr ⟨ho, Bool.not_eq_false _ ▸ hadm⟩
        rw [← mem_orderBy ObjectRow.key, hhead] at hmem
        exact absurd hmem List.not_mem_nil
      simp only [listLoop, hgo, if_false, hhead, hnil, hn]
      rfl
    | some o =>
      obtain ⟨hmem, hleft, hless⟩ := scan_step hlive (some d) hc hhead
      obtain ⟨ho, hp⟩ := mem_withPrefix.mp hmem
      have hc' := nextCursor_from (some d) hp
      have ih := fun m => @ih m _ hc' (by omega)
      -- the first entry of a page that still has room, and the rest of the page
      have hpage : ∀ e es, pageOf r (r.maxKeys.toNat - emitted) (e :: es)
          = showEntry (turnToken r emitted e) e
            :: pageOf r (r.maxKeys.toNat - (emitted + 1)) es := by
        intro e es
        rw [hn, hrest, pageOf, turnToken]
        simp only [hlast]
      rw [hleft]
      cases hg : commonPrefixOf r.effectivePrefix d o.key with
      | some common =>
        rw [Grouping.entry_of_some ((rollup_group hp).trans hg)] at ih ⊢
        by_cases hdrop : ∃ m ∈ r.startAfter, common ≤ m
        · rw [listLoop_dropped hgo hhead hg hdrop, ih,
            List.filter_cons_of_neg (by simp [kept_iff.mpr hdrop])]
        · have hkept : kept r.startAfter (.group common) = true := by
            rw [← Bool.not_eq_false, kept_iff]
            exact hdrop
          rw [listLoop_group hgo hhead hd hg hdrop, ih, List.filter_cons_of_pos hkept, hpage]
          rfl
      | none =>
        rw [Grouping.entry_of_none ((rollup_group hp).trans hg)] at ih ⊢
        rw [listLoop_item hgo hhead hd hlive ho hg, ih, List.filter_cons_of_pos rfl, hpage]
        rfl

/-! ## 7. `list` -/

theorem rollup_none_group (p key : Text) : (rollup p none).group key = none := by
  simp [rollup]

theorem left_none {live : List ObjectRow} (hlive : (live.map ObjectRow.key).Nodup) (p : Text)
    (c : Cursor) :
    left live p none c = (orderBy ObjectRow.key (selected live p none c)).map .item := by
  have hnodup : ((selected live p none c).map ObjectRow.key).Nodup :=
    Scan.selected_nodup (withPrefix_nodup hlive p)
  symm
  apply Grouping.eq_listing hnodup
  · rw [List.pairwise_map]
    exact List.pairwise_map.mp (orderBy_pairwise_lt ObjectRow.key hnodup)
  · intro e
    rw [List.mem_map]
    constructor
    · rintro ⟨o, ho, rfl⟩
      exact ⟨o, (mem_orderBy ObjectRow.key).mp ho, Grouping.entry_of_none (rollup_none_group _ _)⟩
    · rintro ⟨o, ho, rfl⟩
      exact ⟨o, (mem_orderBy ObjectRow.key).mpr ho,
        (Grouping.entry_of_none (rollup_none_group _ _)).symm⟩

theorem pageOf_items {r : ListRequest} (hd : r.effectiveDelimiter = none) (rows : List ObjectRow)
    {i : Nat} (hm : r.maxKeys = i + n) :
    ((rows.zipIdx i).take n).map (fun (o, j) => objectEntry o
        (if ((j : Int) + 1) = r.maxKeys then
          some (makeListToken r.bucket r.effectivePrefix none o.key false) else none))
      = pageOf r n (rows.map .item) := by
  induction rows generalizing n i with
  | nil => cases n <;> simp [pageOf]
  | cons o rows ih =>
    cases n with
    | zero => simp [pageOf]
    | succ n =>
      have hlast : ((i : Int) + 1 = r.maxKeys) ↔ n = 0 := by omega
      have ih := ih (n := n) (i := i + 1) (by omega)
      simp only [List.zipIdx_cons, List.take_succ_cons, List.map_cons, ih, pageOf, hlast,
        showEntry, tokenAfter, nextCursor, hd, Option.map_some]

theorem listRange_eq {r : ListRequest} (hd : r.effectiveDelimiter = none) (hm : 0 ≤ r.maxKeys)
    {live : List ObjectRow} (hlive : (live.map ObjectRow.key).Nodup) {c : Cursor}
    (hc : c.From r.effectivePrefix) : listRange r live c = pageOf r r.maxKeys.toNat
      ((left live r.effectivePrefix none c).filter (kept r.startAfter)) := by
  have hkept : ((orderBy ObjectRow.key (selected live r.effectivePrefix none c)).map
      Entry.item).filter (kept r.startAfter)
      = (orderBy ObjectRow.key (selected live r.effectivePrefix none c)).map .item := by
    apply List.filter_eq_self.mpr
    intro e he
    obtain ⟨o, _, rfl⟩ := List.mem_map.mp he
    rfl
  rw [left_none hlive, hkept, listRange, rangeRows_eq none hc]
  exact pageOf_items hd _ (by omega)

/-- The checks that `list` makes before it looks at any row. -/
def ListRequest.accepted (r : ListRequest) : Bool :=
  0 ≤ r.maxKeys ∧ r.maxKeys ≤ 1000 ∧ octetLength r.effectivePrefix ≤ 1024 ∧
    octetLength (r.effectiveDelimiter.getD []) ≤ 1024

theorem liveRows_nodup {rows : List ObjectRow} (hpk : (rows.map ObjectRow.pk).Nodup)
    (h : LatestUnique rows) (b : Nat) : ((liveRows rows b).map ObjectRow.key).Nodup := by
  apply (hpk.of_map.filter _).map_on
  intro o ho r hr hkey
  simp only [List.mem_filter, decide_eq_true_eq] at ho hr
  obtain ⟨ho, hob, hol, _⟩ := ho
  obtain ⟨hr, hrb, hrl, _⟩ := hr
  have hbucket := hob.trans hrb.symm
  have hversion := h o ho r hr hol hrl hbucket hkey
  apply List.inj_on_of_nodup_map hpk ho hr
  simp only [ObjectRow.pk, hbucket, hkey, hversion]

/-- **A page of `list`.**  It shows the first entries of what is left at its cursor. -/
theorem list_page {c : Context} {r : ListRequest} {s : Db} {b : Nat}
    (hlive : ((liveRows s.object.rows b).map ObjectRow.key).Nodup)
    (hb : Yields (bucketIdOf c r.bucket) s b s) (hr : r.accepted = true)
    (hone : r.continuationToken = none ∨ r.startAfter = none) {cur : Cursor}
    (hcur : startCursor r = .ok cur) (hfrom : cur.From r.effectivePrefix) :
    Yields (list c r) s (pageOf r r.maxKeys.toNat
      ((left (liveRows s.object.rows b) r.effectivePrefix r.effectiveDelimiter cur).filter
        (kept r.startAfter))) s := by
  simp only [ListRequest.accepted, decide_eq_true_eq] at hr
  obtain ⟨hpos, hmax, hpre, hdel⟩ := hr
  unfold list
  rw [yields_bind]
  refine ⟨b, s, hb, ?_⟩
  simp only [yields_raiseIf_bind, yields_reading_bind, yields_reading]
  refine ⟨by omega, by omega, ?_, cur, hcur, ?_⟩
  · rintro ⟨ht, hs⟩
    rcases hone with h | h
    · simp [h] at ht
    · simp [h] at hs
  · cases hd : r.effectiveDelimiter with
    | none => exact ⟨congrArg Except.ok (listRange_eq hd hpos hlive hfrom), trivial⟩
    | some d =>
      refine ⟨listLoop_eq hd hlive hfrom (Nat.lt_succ_of_le ?_), trivial⟩
      exact (List.length_filter_le _ _).trans (List.length_filter_le _ _)

/-! ## 8. Thresholds -/

def fullListing (live : List ObjectRow) (p : Text) (delimiter : Option Text) :
    List (Entry Char ObjectRow) :=
  (rollup p delimiter).listing ObjectRow.key (withPrefix live p)

abbrev listingAfter (live : List ObjectRow) (p : Text) (delimiter marker : Option Text) :
    List (Entry Char ObjectRow) :=
  cutAfter (Entry.name ObjectRow.key) (fullListing live p delimiter) marker

section Threshold

variable {live : List ObjectRow} {p : Text} {delimiter : Option Text}

theorem fullListing_pairwise (hlive : (live.map ObjectRow.key).Nodup) :
    (fullListing live p delimiter).Pairwise fun e e' =>
      e.name ObjectRow.key < e'.name ObjectRow.key :=
  Grouping.listing_pairwise (withPrefix_nodup hlive p)

theorem mem_fullListing (he : e ∈ fullListing live p delimiter) :
    ∃ o, p <+: o.key ∧ e = (rollup p delimiter).entry ObjectRow.key o := by
  obtain ⟨o, ho, rfl⟩ := Grouping.mem_listing.mp he
  exact ⟨o, (mem_withPrefix.mp ho).2, rfl⟩

/-- The rows after a marker, rolled up, without the common prefixes that are not after it. -/
theorem listing_marker (hlive : (live.map ObjectRow.key).Nodup) {sel : ObjectRow → Bool}
    (hstart : ∀ o ∈ withPrefix live p, sel o = after marker o.key) :
    ((rollup p delimiter).listing ObjectRow.key ((withPrefix live p).filter sel)).filter
      (kept marker) = listingAfter live p delimiter marker := by
  cases marker with
  | none =>
    rw [List.filter_eq_self.mpr hstart, kept_none]
    rfl
  | some m =>
    apply Grouping.listing_after (m := m) (withPrefix_nodup hlive p)
    · intro o ho
      rw [hstart o ho]
      simp [after]
    · exact fun o => rfl
    · intro o common _
      simp [kept, after]
    · intro o
      simp

/-- What is left at the cursor after an entry comes after it. -/
theorem left_nextCursor (hlive : (live.map ObjectRow.key).Nodup)
    (he : e ∈ fullListing live p delimiter) : left live p delimiter (nextCursor e)
      = listingAfter live p delimiter (some (e.name ObjectRow.key)) := by
  obtain ⟨o, _, rfl⟩ := mem_fullListing he
  exact Scan.left_next (S := keyScan p delimiter) (withPrefix_nodup hlive p) o

/-- **The listing after a marker is the reference listing.** -/
theorem isListing_listingAfter {rows : List ObjectRow} {b : Nat}
    (hlive : ((liveRows rows b).map ObjectRow.key).Nodup) :
    IsListing rows b p delimiter marker (listingAfter (liveRows rows b) p
      (delimiter.filter fun d => d ≠ []) marker) := by
  have hmem : ∀ e, e ∈ listingAfter (liveRows rows b) p (delimiter.filter fun d => d ≠ []) marker ↔
      (∃ o ∈ rows, IsLive b p o ∧
        (rollup p (delimiter.filter fun d => d ≠ [])).entry ObjectRow.key o = e) ∧
        ∀ m, marker = some m → m < e.name ObjectRow.key := by
    intro e
    rw [listingAfter, cutAfter, List.mem_filter, fullListing, Grouping.mem_listing,
      Option.all_eq_true]
    simp only [mem_withPrefix, liveRows, List.mem_filter, decide_eq_true_eq, IsLive, and_assoc]
  refine ⟨cutAfter_pairwise (fullListing_pairwise hlive) marker, fun o => ?_, fun common => ?_⟩
  · simp only [hmem, Grouping.entry_eq_item]
    constructor
    · rintro ⟨⟨_, ho, hl, hnone, rfl⟩, hm⟩
      refine ⟨ho, hl, hm, fun common hrolls => ?_⟩
      exact absurd (hnone.symm.trans ((rollup_group_iff hl.2.2.2).mpr hrolls)) (by simp)
    · rintro ⟨ho, hl, hm, hnone⟩
      refine ⟨⟨o, ho, hl, ?_, rfl⟩, hm⟩
      exact Option.eq_none_iff_forall_ne_some.mpr fun common hgroup =>
        hnone common ((rollup_group_iff hl.2.2.2).mp hgroup)
  · simp only [hmem, Grouping.entry_eq_group]
    constructor
    · rintro ⟨⟨o, ho, hl, hgroup⟩, hm⟩
      exact ⟨⟨o, ho, hl, (rollup_group_iff hl.2.2.2).mp hgroup⟩, hm⟩
    · rintro ⟨⟨o, ho, hl, hrolls⟩, hm⟩
      exact ⟨⟨o, ho, hl, (rollup_group_iff hl.2.2.2).mpr hrolls⟩, hm⟩

end Threshold

/-! ## 9. The entries of a page -/

def ListEntry.shown (e : ListEntry) : ListEntry := { e with continuationToken := none }

section Page

variable {r : ListRequest}

theorem pageOf_shown (n : Nat) (l : List (Entry Char ObjectRow)) :
    (pageOf r n l).map ListEntry.shown = (l.take n).map (showEntry none) := by
  induction n generalizing l with
  | zero => rfl
  | succ n ih =>
    cases l with
    | nil => rfl
    | cons e l =>
      rw [pageOf, List.map_cons, ih, List.take_succ_cons, List.map_cons]
      cases e <;> rfl

theorem length_pageOf (n : Nat) (l : List (Entry Char ObjectRow)) :
    (pageOf r n l).length = min n l.length := by
  have h := congrArg List.length (pageOf_shown (r := r) n l)
  simpa using h

theorem getLast?_pageOf (he : l[n]? = some e) :
    (pageOf r (n + 1) l).getLast? = some (showEntry (tokenAfter r e) e) := by
  induction n generalizing l with
  | zero =>
    cases l with
    | nil => exact absurd he (by simp)
    | cons a l =>
      cases he
      simp [pageOf]
  | succ n ih =>
    cases l with
    | nil => exact absurd he (by simp)
    | cons a l =>
      have he : l[n]? = some e := he
      rw [pageOf, List.getLast?_cons, ih he]
      rfl

theorem tokens_pageOf (h : l.length < n) : ∀ x ∈ pageOf r n l, x.continuationToken = none := by
  induction n generalizing l with
  | zero => exact absurd h (Nat.not_lt_zero _)
  | succ n ih =>
    cases l with
    | nil =>
      intro x hx
      exact absurd hx List.not_mem_nil
    | cons e l =>
      rw [List.length_cons] at h
      intro x hx
      rw [pageOf, List.mem_cons] at hx
      rcases hx with rfl | hx
      · rw [if_neg (by omega)]
        cases e <;> rfl
      · exact ih (by omega) x hx

theorem showEntry_token (t : Option ContinuationToken) (e : Entry Char ObjectRow) :
    (showEntry t e).continuationToken = t := by
  cases e <;> rfl

theorem showEntry_name (t : Option ContinuationToken) (e : Entry Char ObjectRow) :
    ((showEntry t e).key <|> (showEntry t e).commonPrefix) = some (e.name ObjectRow.key) := by
  cases e <;> rfl

end Page

/-! ## 10. Where requests start -/

theorem startCursor_marker {r : ListRequest} {live : List ObjectRow}
    (hlive : (live.map ObjectRow.key).Nodup) (h : r.continuationToken = none) :
    ∃ cur, startCursor r = .ok cur ∧ cur.From r.effectivePrefix ∧
      (left live r.effectivePrefix r.effectiveDelimiter cur).filter (kept r.startAfter)
        = listingAfter live r.effectivePrefix r.effectiveDelimiter r.startAfter := by
  -- whichever bound the scan starts at, it selects the keys after the marker
  have hstart : ∃ cur, startCursor r = .ok cur ∧ cur.From r.effectivePrefix ∧
      ∀ o ∈ withPrefix live r.effectivePrefix, cur.admits o.key = after r.startAfter o.key := by
    cases hm : r.startAfter with
    | none =>
      refine ⟨⟨some r.effectivePrefix, true⟩, by simp only [startCursor, h, hm], ?_, ?_⟩
      · exact fun seek hseek => le_of_eq (Option.some.inj hseek)
      · intro o ho
        simpa [Cursor.admits, after] using le_of_isPrefix (mem_withPrefix.mp ho).2
    | some m =>
      by_cases hlt : m < r.effectivePrefix
      · refine ⟨⟨some r.effectivePrefix, true⟩, by simp only [startCursor, h, hm, hlt, if_true],
          ?_, ?_⟩
        · exact fun seek hseek => le_of_eq (Option.some.inj hseek)
        · intro o ho
          have hle := le_of_isPrefix (mem_withPrefix.mp ho).2
          simp [Cursor.admits, after, hle, lt_of_lt_of_le hlt hle]
      · refine ⟨⟨some m, false⟩, by simp only [startCursor, h, hm, hlt, if_false], ?_, ?_⟩
        · exact fun seek hseek => Option.some.inj hseek ▸ not_lt.mp hlt
        · intro o _
          simp [Cursor.admits, after]
  obtain ⟨cur, hcur, hfrom, hstart⟩ := hstart
  exact ⟨cur, hcur, hfrom, listing_marker hlive hstart⟩

theorem startCursor_token {r r' : ListRequest} (hbucket : r'.bucket = r.bucket)
    (hpre : r'.effectivePrefix = r.effectivePrefix)
    (hdel : r'.effectiveDelimiter = r.effectiveDelimiter) (ht : tokenAfter r e = some t)
    (h : r'.continuationToken = some t) : startCursor r' = .ok (nextCursor e) := by
  obtain ⟨seek, hseek, rfl⟩ := Option.map_eq_some_iff.mp ht
  have hnext : nextCursor e = ⟨some seek, (nextCursor e).inclusive⟩ := by rw [← hseek]
  have hparse : parseListToken (makeListToken r.bucket r.effectivePrefix r.effectiveDelimiter seek
      (nextCursor e).inclusive) = .ok ⟨some 1, some (some r.bucket), some (some r.effectivePrefix),
        r.effectiveDelimiter, some (some seek), some (some (nextCursor e).inclusive)⟩ := by
    simp [makeListToken, parseListToken]
  rw [hnext]
  simp only [startCursor, h, hparse]
  simp [bind, Except.bind, hbucket, hpre, hdel]

/-! ## 11. Pages over HTTP -/

theorem clearLastToken_shown (records : List ListEntry) :
    (clearLastToken records).map ListEntry.shown = records.map ListEntry.shown := by
  rcases List.eq_nil_or_concat' records with rfl | ⟨front, last, rfl⟩
  · rfl
  · simp [clearLastToken, ListEntry.shown]

theorem getLast?_clearLastToken (records : List ListEntry) :
    (clearLastToken records).getLast?.bind ListEntry.continuationToken = none := by
  rcases List.eq_nil_or_concat' records with rfl | ⟨front, last, rfl⟩
  · rfl
  · simp [clearLastToken]

/-- The arguments that the worker passes to `list`. -/
def ListParams.request (p : ListParams) (bucket : Text) (v2 : Bool) : ListRequest :=
  ⟨bucket, some p.keyPrefix, p.delimiter, if v2 then p.startAfter else p.marker,
    p.continuationToken, p.maxKeys⟩

section Http

variable {c : Context} {s : Db} {b : Nat} {bucket : Text} {records : List ListEntry}

/-- Whether a page says that it is truncated depends on its length and its last token. -/
theorem isListTruncated_iff : isListTruncated (n + 1 : Nat) records = true ↔
      records.length = n + 1 ∧ (records.getLast?.bind ListEntry.continuationToken).isSome := by
  simp only [isListTruncated, decide_eq_true_eq]
  constructor
  · rintro ⟨_, hlen, htok⟩
    exact ⟨by omega, htok⟩
  · rintro ⟨hlen, htok⟩
    exact ⟨by omega, by omega, htok⟩

/-- **The probe.**  The token of the last entry, if it has one, leads to a page that shows
    something exactly when more is left. -/
theorem probe_page {r : ListRequest} (hbucket : Yields (bucketIdOf c r.bucket) s b s)
    (hlive : ((liveRows s.object.rows b).map ObjectRow.key).Nodup) (hr : r.accepted = true)
    (he : e ∈ fullListing (liveRows s.object.rows b) r.effectivePrefix r.effectiveDelimiter)
    (ht : tokenAfter r e = some t) :
    Yields (list c ⟨r.bucket, r.keyPrefix, r.delimiter, none, some t, 1⟩) s
      (pageOf ⟨r.bucket, r.keyPrefix, r.delimiter, none, some t, 1⟩ 1
        (left (liveRows s.object.rows b) r.effectivePrefix r.effectiveDelimiter
          (nextCursor e))) s := by
  obtain ⟨o, ho, rfl⟩ := mem_fullListing he
  have hcur : startCursor ⟨r.bucket, r.keyPrefix, r.delimiter, none, some t, 1⟩ = .ok _ :=
    startCursor_token (r := r) rfl rfl rfl ht rfl
  have hpage := list_page (r := ⟨r.bucket, r.keyPrefix, r.delimiter, none, some t, 1⟩) hlive
    hbucket ?_ (Or.inr rfl) hcur (nextCursor_from r.effectiveDelimiter ho)
  · simp only [kept_none, List.filter_true] at hpage
    exact hpage
  · simp only [ListRequest.accepted, decide_eq_true_eq] at hr ⊢
    exact ⟨by decide, by decide, hr.2.2⟩

/-- What a page of `list_objects` says about a listing that it begins. -/
structure PageOf (r : ListRequest) (live : List ObjectRow) (l : List (Entry Char ObjectRow))
    (n : Nat) (records : List ListEntry) : Prop where
  shown : records.map ListEntry.shown = (l.take (n + 1)).map (showEntry none)
  done : isListTruncated (n + 1 : Nat) records = false → ∀ e, l[n]? = some e →
    listingAfter live r.effectivePrefix r.effectiveDelimiter (some (e.name ObjectRow.key)) = []
  more : isListTruncated (n + 1 : Nat) records = true → ∃ e t, l[n]? = some e ∧
    listingAfter live r.effectivePrefix r.effectiveDelimiter (some (e.name ObjectRow.key)) ≠ [] ∧
    nextMarker records = e.name ObjectRow.key ∧ tokenAfter r e = some t ∧
    records.getLast?.bind ListEntry.continuationToken = some t

theorem PageOf.of_last {r : ListRequest} {live : List ObjectRow}
    (hshown : records.map ListEntry.shown = (l.take (n + 1)).map (showEntry none))
    (hlast : records.getLast?.bind ListEntry.continuationToken = none)
    (hdone : ∀ e, l[n]? = some e → listingAfter live r.effectivePrefix r.effectiveDelimiter
      (some (e.name ObjectRow.key)) = []) : PageOf r live l n records where
  shown := hshown
  done := fun _ => hdone
  more := by
    rw [isListTruncated_iff, hlast]
    simp

theorem listObjects_done {p : ListParams} {rows : List ListEntry}
    (hpage : Yields (list c (p.request bucket v2)) s rows s)
    (hlast : rows.getLast?.bind ListEntry.continuationToken = none) :
    Yields (listObjects c bucket p v2) s rows s := by
  refine yields_bind.mpr ⟨rows, s, hpage, ?_⟩
  simp only [hlast]
  exact yields_pure.mpr ⟨rfl, rfl⟩

theorem listObjects_probed {p : ListParams} {rows probe : List ListEntry}
    (hpage : Yields (list c (p.request bucket v2)) s rows s)
    (hlast : rows.getLast?.bind ListEntry.continuationToken = some t)
    (hfull : 0 < p.maxKeys ∧ (rows.length : Int) = p.maxKeys)
    (hprobe : Yields (list c ⟨bucket, some p.keyPrefix, p.delimiter, none, some t, 1⟩) s probe s) :
    Yields (listObjects c bucket p v2) s
      (if probe.isEmpty then clearLastToken rows else rows) s := by
  refine yields_bind.mpr ⟨rows, s, hpage, ?_⟩
  simp only [hlast, hfull, and_self, if_true]
  exact yields_bind.mpr ⟨probe, s, hprobe, yields_pure.mpr ⟨rfl, rfl⟩⟩

/-- **A page of `list_objects`.** -/
theorem listObjects_page (hlive : ((liveRows s.object.rows b).map ObjectRow.key).Nodup)
    (hbucket : Yields (bucketIdOf c bucket) s b s) {p : ListParams} {r : ListRequest}
    (hrequest : p.request bucket v2 = r) (hr : r.accepted = true)
    (hone : r.continuationToken = none ∨ r.startAfter = none) {cur : Cursor}
    (hcur : startCursor r = .ok cur) (hfrom : cur.From r.effectivePrefix)
    (hl : l = listingAfter (liveRows s.object.rows b) r.effectivePrefix r.effectiveDelimiter marker)
    (hleft : (left (liveRows s.object.rows b) r.effectivePrefix r.effectiveDelimiter cur).filter
      (kept r.startAfter) = l) (hn : p.maxKeys = (n + 1 : Nat)) :
    ∃ records, Yields (listObjects c bucket p v2) s records s ∧
      PageOf r (liveRows s.object.rows b) l n records := by
  subst hrequest
  have hpage := list_page hlive hbucket hr hone hcur hfrom
  have htake : (p.request bucket v2).maxKeys.toNat = n + 1 := by
    change p.maxKeys.toNat = n + 1
    omega
  rw [hleft, htake] at hpage
  have hshown := pageOf_shown (r := p.request bucket v2) (n + 1) l
  have hlen := length_pageOf (r := p.request bucket v2) (n + 1) l
  cases he : l[n]? with
  | none =>
    -- the page is not full, so no entry has a token
    have hshort := List.getElem?_eq_none_iff.mp he
    have hlast : (pageOf (p.request bucket v2) (n + 1) l).getLast?.bind
        ListEntry.continuationToken = none := by
      rw [Option.bind_eq_none_iff]
      intro x hx
      exact tokens_pageOf (Nat.lt_succ_of_le hshort) x (List.mem_of_getLast? hx)
    refine ⟨_, listObjects_done hpage hlast, .of_last hshown hlast fun e he' => ?_⟩
    exact absurd (he.symm.trans he') (by simp)
  | some e =>
    have hmem : e ∈ fullListing (liveRows s.object.rows b) (p.request bucket v2).effectivePrefix
        (p.request bucket v2).effectiveDelimiter :=
      (List.mem_filter.mp (hl ▸ List.mem_of_getElem? he)).1
    have hnext := left_nextCursor hlive hmem
    have hgetLast := getLast?_pageOf (r := p.request bucket v2) he
    have hlast : (pageOf (p.request bucket v2) (n + 1) l).getLast?.bind
        ListEntry.continuationToken = tokenAfter (p.request bucket v2) e := by
      rw [hgetLast, Option.bind_some, showEntry_token]
    have hfull := (List.getElem?_eq_some_iff.mp he).1
    cases ht : tokenAfter (p.request bucket v2) e with
    | none =>
      -- no key can follow the last common prefix
      rw [ht] at hlast
      refine ⟨_, listObjects_done hpage hlast, .of_last hshown hlast fun e' he' => ?_⟩
      obtain rfl := Option.some.inj (he.symm.trans he')
      rw [← hnext]
      exact left_of_stop (Or.inl (Option.map_eq_none_iff.mp ht))
    | some t =>
      rw [ht] at hlast
      have hprobe := probe_page hbucket hlive hr hmem ht
      have hyields := listObjects_probed hpage hlast ⟨by omega, by omega⟩ hprobe
      cases hrest : left (liveRows s.object.rows b) (p.request bucket v2).effectivePrefix
          (p.request bucket v2).effectiveDelimiter (nextCursor e) with
      | nil =>
        rw [hrest] at hyields hnext
        refine ⟨_, hyields, .of_last ?_ (getLast?_clearLastToken _) fun e' he' => ?_⟩
        · rw [← hshown]
          exact clearLastToken_shown _
        · exact Option.some.inj (he.symm.trans he') ▸ hnext.symm
      | cons next more =>
        rw [hrest] at hyields hnext
        refine ⟨pageOf (p.request bucket v2) (n + 1) l, hyields, hshown, fun h => ?_,
          fun _ => ⟨e, t, he, ?_, ?_, ht, hlast⟩⟩
        · rw [← Bool.not_eq_true, isListTruncated_iff, hlast] at h
          exact absurd ⟨by omega, rfl⟩ h
        · rw [← hnext]
          exact List.cons_ne_nil _ _
        · rw [nextMarker, hgetLast, Option.bind_some, showEntry_name]
          rfl

/-! ## 12. Following the pages -/

def fetch (c : Context) (bucket : Text) (s : Db) (v2 : Bool) (p : ListParams) :
    Except PgError (List ListEntry × Option ListParams) :=
  if v2 then fetchV2 c bucket s p else fetchV1 c bucket s p

/-- The request for the page after these records. -/
def ListParams.next (p : ListParams) (v2 : Bool) (records : List ListEntry) : ListParams :=
  if v2 then
    { p with
      startAfter := none
      continuationToken := records.getLast?.bind ListEntry.continuationToken }
  else
    { p with marker := some (S3.ListingXml.received p.encodingTypeUrl (nextMarker records)) }

theorem fetch_eq {p : ListParams} {m : Int} (hm : p.maxKeys = m)
    (h : Yields (listObjects c bucket p v2) s records s) :
    fetch c bucket s v2 p
      = .ok (records, if isListTruncated m records then some (p.next v2 records) else none) := by
  subst hm
  cases v2 with
  | true => simp only [fetch, fetchV2, commit_ok_iff.mpr h, ListParams.next, if_true]
  | false =>
    simp only [fetch, fetchV1, commit_ok_iff.mpr h, ListParams.next, Bool.false_eq_true, if_false]

/-- What the next request resumes after: a token names the entry, a marker is what the client
    received. -/
def resumesAfter (v2 url : Bool) (e : Entry Char ObjectRow) : Text :=
  if v2 then e.name ObjectRow.key else S3.ListingXml.received url (e.name ObjectRow.key)

/-- The requests that a client comes to make that began with `p₀`, and what they list. -/
def Resumes (live : List ObjectRow) (bucket : Text) (v2 : Bool) (p₀ p : ListParams)
    (marker : Option Text) : Prop :=
  ∃ marker' startAfter token cur,
    p = { p₀ with marker := marker', startAfter := startAfter, continuationToken := token } ∧
    (token = none ∨ v2 = true ∧ startAfter = none) ∧
    startCursor (p.request bucket v2) = .ok cur ∧ cur.From p₀.keyPrefix ∧
    (left live p₀.keyPrefix (p₀.request bucket v2).effectiveDelimiter cur).filter
        (kept (p.request bucket v2).startAfter)
      = listingAfter live p₀.keyPrefix (p₀.request bucket v2).effectiveDelimiter marker

variable {p₀ : ListParams}

theorem resumes_marker {live : List ObjectRow} (hlive : (live.map ObjectRow.key).Nodup)
    {marker' startAfter : Option Text} {p : ListParams}
    (hp : p = { p₀ with
      marker := marker', startAfter := startAfter, continuationToken := none }) :
    Resumes live bucket v2 p₀ p (p.request bucket v2).startAfter := by
  subst hp
  obtain ⟨cur, hcur, hfrom, hleft⟩ := startCursor_marker hlive
    (r := ListParams.request { p₀ with
      marker := marker', startAfter := startAfter, continuationToken := none } bucket v2) rfl
  exact ⟨_, _, _, cur, rfl, Or.inl rfl, hcur, hfrom, hleft⟩

/-- **Both ways of following the pages resume at thresholds.** -/
theorem paging (v2 : Bool) (p₀ : ListParams)
    (hlive : ((liveRows s.object.rows b).map ObjectRow.key).Nodup)
    (hbucket : Yields (bucketIdOf c bucket) s b s) (hr : (p₀.request bucket v2).accepted = true)
    (hn : p₀.maxKeys = (n + 1 : Nat)) :
    Paging (fetch c bucket s v2) (List.map ListEntry.shown) (isListTruncated (n + 1 : Nat))
      (Entry.name ObjectRow.key) (showEntry none) (fullListing (liveRows s.object.rows b)
        p₀.keyPrefix (p₀.request bucket v2).effectiveDelimiter) n (Entry.name ObjectRow.key)
      (resumesAfter v2 p₀.encodingTypeUrl)
      (Resumes (liveRows s.object.rows b) bucket v2 p₀) where
  sorted := fullListing_pairwise hlive
  shows := by
    intro e _ e' _ h
    have hname := congrArg (fun x : ListEntry => x.key <|> x.commonPrefix) h
    simp only [showEntry_name] at hname
    exact Option.some.inj hname
  mark_le := fun e _ => le_refl _
  sent_or := by
    intro e _
    unfold resumesAfter
    split
    · exact Or.inl rfl
    · by_cases h : p₀.encodingTypeUrl = true ∨ '\r' ∉ e.name ObjectRow.key
      · exact Or.inl (S3.ListingXml.received_eq_self h)
      · rw [not_or, not_not] at h
        rw [Bool.eq_false_iff.mpr h.1]
        exact Or.inr (normalizeEol_lt h.2)
  page := by
    rintro p t ⟨marker', startAfter, token, cur, rfl, htoken, hcur, hfrom, hleft⟩
    have hone : token = none ∨ (if v2 then startAfter else marker') = none := by
      rcases htoken with h | ⟨rfl, h⟩
      · exact Or.inl h
      · exact Or.inr h
    obtain ⟨records, hyields, hpage⟩ := listObjects_page (p := { p₀ with
      marker := marker', startAfter := startAfter, continuationToken := token }) hlive hbucket rfl
      hr hone hcur hfrom rfl hleft hn
    refine ⟨records, _, fetch_eq hn hyields, hpage.shown, ?_, ?_, ?_⟩
    · cases isListTruncated (n + 1 : Nat) records <;> rfl
    · intro hnone
      apply hpage.done
      rw [← Bool.not_eq_true]
      exact fun h => absurd (ite_eq_right_iff.mp hnone h) (by simp)
    · intro p' hp'
      obtain ⟨htrunc, hp'⟩ := Option.ite_none_right_eq_some.mp hp'
      obtain ⟨e, t, he, hmore, hmark, ht, hlast⟩ := hpage.more htrunc
      obtain rfl := Option.some.inj hp'
      refine ⟨e, he, hmore, ?_⟩
      unfold ListParams.next
      rw [hmark, hlast]
      cases v2 with
      | false =>
        obtain rfl := htoken.resolve_right (by simp)
        exact resumes_marker hlive rfl
      | true =>
        have hmem := (List.mem_filter.mp (List.mem_of_getElem? he)).1
        obtain ⟨o, ho, heo⟩ := mem_fullListing hmem
        refine ⟨_, none, some t, nextCursor e, rfl, Or.inr ⟨rfl, rfl⟩,
          startCursor_token (r := p₀.request bucket true) rfl rfl rfl ht rfl, ?_, ?_⟩
        · rw [heo]
          exact nextCursor_from _ ho
        · exact (List.filter_eq_self.mpr fun e _ => congrFun kept_none e).trans
            (left_nextCursor hlive hmem)

theorem list_refuses {r : ListRequest} (hr : r.accepted = false) :
    ∃ e, (commit (list c r) s).1 = .error e := by
  cases hcommit : commit (list c r) s with
  | mk result s' =>
    cases result with
    | error e => exact ⟨e, rfl⟩
    | ok entries =>
      obtain ⟨_, _, _, hrest⟩ := yields_bind.mp (commit_ok_iff.mp hcommit)
      simp only [yields_raiseIf_bind] at hrest
      obtain ⟨hmax, hlong, _⟩ := hrest
      have haccepted : r.accepted = true := by
        simp only [ListRequest.accepted, decide_eq_true_eq]
        omega
      exact absurd (hr.symm.trans haccepted) (by simp)

end Http

theorem IsListing.unique {rows : List ObjectRow} {b : Nat} {p : Text} {delimiter : Option Text}
    {l' : List (Entry Char ObjectRow)} (h : IsListing rows b p delimiter marker l)
    (h' : IsListing rows b p delimiter marker l') : l = l' := by
  apply Grouping.eq_of_strict h.sorted h'.sorted
  intro e
  cases e with
  | item o => rw [h.item, h'.item]
  | group common => rw [h.group, h'.group]

/-- The entry with index `i` is followed by another one, and its name has a carriage return. -/
def ReturnAt (l : List (Entry Char ObjectRow)) (i : Nat) : Prop :=
  ∃ e e', l[i]? = some e ∧ l[i + 1]? = some e' ∧ '\r' ∈ e.name ObjectRow.key

theorem whole_marker_iff {url : Bool}
    (hl : l.Pairwise fun e e' => e.name ObjectRow.key < e'.name ObjectRow.key) :
    Paging.Whole (Entry.name ObjectRow.key) (resumesAfter false url) n l ↔
      url = true ∨ ∀ j, ¬ ReturnAt l (j * (n + 1) + n) := by
  constructor
  · intro hwhole
    cases url with
    | true => exact Or.inl rfl
    | false =>
      right
      rintro j ⟨e, e', he, he', hreturn⟩
      exact absurd (hwhole j e e' he he').1 (not_le_of_gt (normalizeEol_lt hreturn))
  · intro h
    apply Paging.whole_of_sent_eq hl
    intro j e e' he he'
    exact S3.ListingXml.received_eq_self
      (h.imp_right fun hnone hreturn => hnone j ⟨e, e', he, he', hreturn⟩)

/-- **Listing a bucket.**  For any visible bucket whose latest versions are unique, any
    prefix, delimiter, marker and page size of at least 1: if `list` accepts the request, it
    returns the first page of the reference listing, and following continuation tokens to the
    end gives the whole of it, with `IsTruncated` exactly where more follows.  If the names are
    texts of XML, or are encoded, following `NextMarker` does the same exactly if it is encoded
    or has no carriage return.  A request that is not accepted raises an error. -/
theorem listing_composes_iff {c : Context} {s : Db} (hu : LatestUnique s.object.rows)
    {bucket : Text} {b : Nat} (hbucket : Yields (bucketIdOf c bucket) s b s) (keyPrefix : Text)
    (delimiter marker : Option Text) {n : Nat} (hn : 1 ≤ n) (url : Bool) :
    let r : ListRequest := ⟨bucket, some keyPrefix, delimiter, marker, none, n⟩
    (r.accepted = false ∧ ∃ e, (commit (list c r) s).1 = .error e) ∨
    (r.accepted = true ∧ ∃ listing,
      IsListing s.object.rows b keyPrefix delimiter marker listing ∧
      (∃ entries, Yields (list c r) s entries s ∧
        entries.map ListEntry.shown = (listing.take n).map (showEntry none)) ∧
      Composes (fetchV2 c bucket s) (List.map ListEntry.shown) (isListTruncated n)
        ⟨keyPrefix, delimiter, none, marker, none, n, url⟩ (listing.map (showEntry none)) ∧
      ((url = true ∨ ∀ e ∈ listing, ∀ ch ∈ e.name ObjectRow.key, isXmlChar ch = true) →
        (Composes (fetchV1 c bucket s) (List.map ListEntry.shown) (isListTruncated n)
            ⟨keyPrefix, delimiter, marker, none, none, n, url⟩ (listing.map (showEntry none)) ↔
          url = true ∨ ∀ j, ¬ ReturnAt listing (j * n + (n - 1))))) := by
  intro r
  have hlive := liveRows_nodup s.object.nodup hu b
  obtain ⟨m, rfl⟩ := Nat.exists_eq_add_of_le' hn
  cases hr : r.accepted with
  | false => exact Or.inl ⟨rfl, list_refuses hr⟩
  | true =>
    obtain ⟨cur, hcur, hfrom, hleft⟩ := startCursor_marker hlive (r := r) rfl
    have hpage := list_page hlive hbucket hr (Or.inl rfl) hcur hfrom
    rw [hleft] at hpage
    have hsorted : (listingAfter (liveRows s.object.rows b) keyPrefix r.effectiveDelimiter
        marker).Pairwise fun e e' => e.name ObjectRow.key < e'.name ObjectRow.key :=
      cutAfter_pairwise (fullListing_pairwise hlive) marker
    refine Or.inr ⟨rfl, _, isListing_listingAfter hlive, ⟨_, hpage, pageOf_shown _ _⟩, ?_, ?_⟩
    · have hpaging := paging (n := m) true
        ⟨keyPrefix, delimiter, none, marker, none, (m + 1 : Nat), url⟩ hlive hbucket hr rfl
      exact hpaging.composes_of_whole (resumes_marker hlive rfl)
        (Paging.whole_of_sent_eq hsorted fun _ _ _ _ _ => rfl)
    · intro _
      have hpaging := paging (n := m) false
        ⟨keyPrefix, delimiter, marker, none, none, (m + 1 : Nat), url⟩ hlive hbucket hr rfl
      exact (hpaging.composes_iff (resumes_marker hlive rfl)).trans (whole_marker_iff hsorted)

/-- A bucket `bucket` with these keys. -/
def bucketOf (keys : List String) : Db :=
  execs Digests.sample ((Context.sample, .createBucket "bucket".toList (.object [])) ::
    keys.map fun key => (Context.sample, .put
      ⟨"bucket".toList, key.toList, some [1], none, none, none, none, none⟩)) Db.empty

theorem yields_sampleBucket {s : Db} {row : BucketRow} (h : (s.bucket.rows.find? fun b =>
      b.name = "bucket".toList ∧ Context.sample.hasRole Context.sample.actor b.owner) = some row) :
    Yields (bucketIdOf Context.sample "bucket".toList) s row.bucketId s := by
  simp only [bucketIdOf, yields_get_bind, yields_orRaise_bind, yields_pure]
  exact ⟨row, h, rfl, trivial⟩

theorem listing_composes_iff_folders :
    ∃ b listing, IsListing (bucketOf ["a", "b/1", "b/2", "c/1"]).object.rows b [] (some ['/']) none
        listing ∧ listing.map (Entry.name ObjectRow.key) = ["a".toList, "b/".toList, "c/".toList] ∧
      Composes (fetchV2 Context.sample "bucket".toList (bucketOf ["a", "b/1", "b/2", "c/1"]))
        (List.map ListEntry.shown) (isListTruncated 2) ⟨[], some ['/'], none, none, none, 2, false⟩
        (listing.map (showEntry none)) ∧
      Composes (fetchV1 Context.sample "bucket".toList (bucketOf ["a", "b/1", "b/2", "c/1"]))
        (List.map ListEntry.shown) (isListTruncated 2) ⟨[], some ['/'], none, none, none, 2, false⟩
        (listing.map (showEntry none)) := by
  have hfind : ((bucketOf ["a", "b/1", "b/2", "c/1"]).bucket.rows.find? fun b =>
      b.name = "bucket".toList ∧ Context.sample.hasRole Context.sample.actor b.owner).any
        (fun row => (listingAfter (liveRows (bucketOf ["a", "b/1", "b/2", "c/1"]).object.rows
          row.bucketId) [] (some ['/']) none).map (Entry.name ObjectRow.key)
            = ["a".toList, "b/".toList, "c/".toList]) = true := by
    decide +kernel
  have hu : LatestUnique (bucketOf ["a", "b/1", "b/2", "c/1"]).object.rows := by decide +kernel
  obtain ⟨row, hrow, hnames⟩ := (Option.any_eq_true _ _).mp hfind
  rcases listing_composes_iff hu (yields_sampleBucket hrow) [] (some ['/']) none (n := 2)
    (by decide) false with h | ⟨_, listing, hlisting, _, hv2, hv1⟩
  · exact absurd h.1 (by decide)
  · have hnames : listing.map (Entry.name ObjectRow.key)
        = ["a".toList, "b/".toList, "c/".toList] := by
      rw [hlisting.unique (isListing_listingAfter (liveRows_nodup (Table.nodup _) hu row.bucketId))]
      exact of_decide_eq_true hnames
    have hall : ∀ name ∈ listing.map (Entry.name ObjectRow.key),
        ∀ ch ∈ name, isXmlChar ch = true ∧ ch ≠ '\r' := by
      rw [hnames]
      simp [isXmlChar]
    refine ⟨row.bucketId, listing, hlisting, hnames, hv2, (hv1 (Or.inr ?_)).mpr (Or.inr ?_)⟩
    · exact fun e he ch hch => (hall _ (List.mem_map_of_mem he) ch hch).1
    · rintro j ⟨e, _, he, _, hreturn⟩
      exact (hall _ (List.mem_map_of_mem (List.mem_of_getElem? he)) _ hreturn).2 rfl

/-- With the keys `a` followed by a carriage return and `b`, whoever follows `NextMarker` in
    pages of one entry is sent back to the first key again and again. -/
theorem marker_pages_never_end :
    (∃ o ∈ (bucketOf ["a\r", "b"]).object.rows, o.key = "b".toList ∧ o.isLatest = true ∧
      o.deleteMarker = false) ∧
    ∀ pages, ¬ Followed (fetchV1 Context.sample "bucket".toList (bucketOf ["a\r", "b"]))
      ⟨[], none, none, none, none, 1, false⟩ pages := by
  refine ⟨by decide +kernel, ?_⟩
  have hfirst : (fetchV1 Context.sample "bucket".toList (bucketOf ["a\r", "b"])
      ⟨[], none, none, none, none, 1, false⟩).toOption.bind Prod.snd
        = some ⟨[], none, some "a\n".toList, none, none, 1, false⟩ := by
    decide +kernel
  have hagain : (fetchV1 Context.sample "bucket".toList (bucketOf ["a\r", "b"])
      ⟨[], none, some "a\n".toList, none, none, 1, false⟩).toOption.bind Prod.snd
        = some ⟨[], none, some "a\n".toList, none, none, 1, false⟩ := by
    decide +kernel
  intro pages hpages
  cases hpages with
  | last hlast =>
    rw [hlast] at hfirst
    cases hfirst
  | more hnext hrest =>
    rw [hnext] at hfirst
    cases hfirst
    exact not_followed_of_loop hagain _ hrest

end Pgs3
