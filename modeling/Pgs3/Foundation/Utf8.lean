import Mathlib

/-!
# Well-formed UTF-8

Which byte strings are UTF-8, as a machine that reads one byte at a time.  Its state is the
list of ranges in which the bytes that the current character still needs have to lie, so
that overlong forms and surrogates are refused at the second byte.  The one structural fact
used elsewhere is that an ASCII byte is a character boundary.
-/

namespace Foundation

/-- The ranges of the bytes still owed by a character. -/
abbrev Owed := List (UInt8 × UInt8)

def utf8Tail : UInt8 × UInt8 := (0x80, 0xBF)

/-- What the first byte of a character asks for. -/
def utf8Lead (b : UInt8) : Option Owed :=
  if b ≤ 0x7F then some []
  else if 0xC2 ≤ b && b ≤ 0xDF then some [utf8Tail]
  else if b = 0xE0 then some [(0xA0, 0xBF), utf8Tail]
  else if b = 0xED then some [(0x80, 0x9F), utf8Tail]
  else if 0xE1 ≤ b && b ≤ 0xEF then some [utf8Tail, utf8Tail]
  else if b = 0xF0 then some [(0x90, 0xBF), utf8Tail, utf8Tail]
  else if 0xF1 ≤ b && b ≤ 0xF3 then some [utf8Tail, utf8Tail, utf8Tail]
  else if b = 0xF4 then some [(0x80, 0x8F), utf8Tail, utf8Tail]
  else none

def utf8Step : Owed → UInt8 → Option Owed
  | [], b => utf8Lead b
  | (low, high) :: owed, b => if low ≤ b && b ≤ high then some owed else none

/-- The bytes are a sequence of complete characters. -/
def validUtf8 (bytes : List UInt8) : Bool := bytes.foldlM utf8Step [] = some []

/-- Nothing that is owed can be paid with an ASCII byte. -/
def Owed.Tails (owed : Owed) : Prop := ∀ range ∈ owed, 0x80 ≤ range.1

theorem utf8Lead_tails {b : UInt8} {owed : Owed} (h : utf8Lead b = some owed) : owed.Tails := by
  unfold utf8Lead at h
  repeat' split at h
  all_goals
    cases h <;> simp [Owed.Tails, utf8Tail]

theorem utf8Step_tails {owed owed' : Owed} {b : UInt8} (htails : owed.Tails)
    (h : utf8Step owed b = some owed') : owed'.Tails := by
  cases owed with
  | nil => exact utf8Lead_tails h
  | cons range owed =>
    simp only [utf8Step] at h
    split at h
    · cases h
      exact fun r hr => htails r (List.mem_cons_of_mem _ hr)
    · cases h

theorem foldlM_utf8Step_tails {bytes : List UInt8} {owed owed' : Owed} (htails : owed.Tails)
    (h : bytes.foldlM utf8Step owed = some owed') : owed'.Tails := by
  induction bytes generalizing owed with
  | nil =>
    cases h
    exact htails
  | cons b bytes ih =>
    rw [List.foldlM_cons] at h
    obtain ⟨next, hnext, hrest⟩ := Option.bind_eq_some_iff.1 h
    exact ih (utf8Step_tails htails hnext) hrest

theorem utf8Step_ascii {owed : Owed} {b : UInt8} (htails : owed.Tails) (hb : b ≤ 0x7F) :
    utf8Step owed b = if owed = [] then some [] else none := by
  cases owed with
  | nil => simp [utf8Step, utf8Lead, hb]
  | cons range owed =>
    have hlow : 0x80 ≤ range.1 := htails range List.mem_cons_self
    have hnot : ¬ range.1 ≤ b := by
      intro hle
      have := UInt8.le_trans hlow (UInt8.le_trans hle hb)
      exact absurd this (by decide)
    simp [utf8Step, hnot]

/-- **An ASCII byte is a character boundary.** -/
theorem validUtf8_append_cons {left right : List UInt8} {b : UInt8} (hb : b ≤ 0x7F) :
    validUtf8 (left ++ b :: right) = true ↔ validUtf8 left = true ∧ validUtf8 right = true := by
  simp only [validUtf8, decide_eq_true_eq, List.foldlM_append, List.foldlM_cons]
  cases hleft : left.foldlM utf8Step [] with
  | none => simp
  | some owed =>
    have htails : owed.Tails := foldlM_utf8Step_tails (by simp [Owed.Tails]) hleft
    by_cases howed : owed = []
    · subst howed
      simp [utf8Step_ascii htails hb]
    · simp [utf8Step_ascii htails hb, howed]

theorem validUtf8_of_ascii {bytes : List UInt8} (h : ∀ b ∈ bytes, b ≤ 0x7F) :
    validUtf8 bytes = true := by
  induction bytes with
  | nil => rfl
  | cons b bytes ih =>
    have hb : b ≤ 0x7F := h b List.mem_cons_self
    have hrest := ih fun c hc => h c (List.mem_cons_of_mem _ hc)
    simpa using (@validUtf8_append_cons [] bytes b hb).2 ⟨rfl, hrest⟩

end Foundation
