import Pgs3.Foundation.Markup
import Pgs3.Foundation.PrefixOrder

/-!
# Decimal digits

Numbers of a fixed width: what a row of digit bytes is worth, that rows of one width are ordered
as their values, and that a number written with leading zeros has its value.
-/

namespace Foundation

/-! ## 1. Values -/

theorem mul_add_lt_iff {unit a b r s : Nat} (hr : r < unit) (hs : s < unit) :
    a * unit + r < b * unit + s ↔ a < b ∨ a = b ∧ r < s := by
  rcases lt_trichotomy a b with hless | rfl | hmore
  · have hmul : (a + 1) * unit ≤ b * unit := Nat.mul_le_mul_right _ hless
    rw [Nat.add_mul, Nat.one_mul] at hmul
    simp only [hless, true_or, iff_true]
    omega
  · simp
  · have hmul : (b + 1) * unit ≤ a * unit := Nat.mul_le_mul_right _ hmore
    rw [Nat.add_mul, Nat.one_mul] at hmul
    constructor <;> omega

def digitsValue (digits : List UInt8) : Nat :=
  digits.foldl (fun value digit => value * 10 + (digit.toNat - 48)) 0

def IsDigits (digits : List UInt8) : Prop := ∀ b ∈ digits, 48 ≤ b.toNat ∧ b.toNat ≤ 57

variable {digits digits' : List UInt8}

theorem IsDigits.append (h : IsDigits digits) (h' : IsDigits digits') :
    IsDigits (digits ++ digits') := by
  intro b hb
  rcases List.mem_append.mp hb with hb | hb
  · exact h b hb
  · exact h' b hb

theorem foldl_digits (value : Nat) (digits : List UInt8) :
    digits.foldl (fun value digit => value * 10 + (digit.toNat - 48)) value
      = value * 10 ^ digits.length + digitsValue digits := by
  induction digits generalizing value with
  | nil => simp [digitsValue]
  | cons d digits ih =>
    have hcons : digitsValue (d :: digits)
        = (0 * 10 + (d.toNat - 48)) * 10 ^ digits.length + digitsValue digits := by
      rw [digitsValue, List.foldl_cons, ih]
    rw [List.foldl_cons, ih, hcons, List.length_cons, pow_succ]
    ring

theorem digitsValue_append (digits digits' : List UInt8) : digitsValue (digits ++ digits')
      = digitsValue digits * 10 ^ digits'.length + digitsValue digits' := by
  rw [digitsValue, List.foldl_append, foldl_digits]
  rfl

theorem digitsValue_cons (d : UInt8) (digits : List UInt8) :
    digitsValue (d :: digits) = (d.toNat - 48) * 10 ^ digits.length + digitsValue digits := by
  rw [digitsValue, List.foldl_cons, foldl_digits, Nat.zero_mul, Nat.zero_add]

theorem digitsValue_lt (h : IsDigits digits) : digitsValue digits < 10 ^ digits.length := by
  induction digits with
  | nil => exact Nat.one_pos
  | cons d digits ih =>
    have hd := h d List.mem_cons_self
    have hrest := ih (fun b hb => h b (List.mem_cons_of_mem _ hb))
    rw [digitsValue_cons, List.length_cons, pow_succ]
    have hle : (d.toNat - 48) * 10 ^ digits.length ≤ 9 * 10 ^ digits.length :=
      Nat.mul_le_mul_right _ (by omega)
    omega

/-- **Rows of one width are ordered as their values.** -/
theorem digits_lt_iff (h : IsDigits digits) (h' : IsDigits digits')
    (hlength : digits.length = digits'.length) :
    digits < digits' ↔ digitsValue digits < digitsValue digits' := by
  induction digits generalizing digits' with
  | nil =>
    rw [List.length_eq_zero_iff.mp hlength.symm]
    simp [digitsValue]
  | cons d digits ih =>
    cases digits' with
    | nil => cases hlength
    | cons d' digits' =>
      have hd := h d List.mem_cons_self
      have hd' := h' d' List.mem_cons_self
      have hrest : IsDigits digits := fun b hb => h b (List.mem_cons_of_mem _ hb)
      have hrest' : IsDigits digits' := fun b hb => h' b (List.mem_cons_of_mem _ hb)
      have hsame := Nat.succ.inj hlength
      have hlt := digitsValue_lt hrest
      have hlt' := digitsValue_lt hrest'
      rw [hsame] at hlt
      rw [List.cons_lt_cons_iff, ih hrest hrest' hsame, digitsValue_cons, digitsValue_cons,
        hsame, mul_add_lt_iff hlt hlt', UInt8.lt_iff_toNat_lt, ← UInt8.toNat_inj]
      omega

theorem digits_eq_iff (h : IsDigits digits) (h' : IsDigits digits')
    (hlength : digits.length = digits'.length) :
    digits = digits' ↔ digitsValue digits = digitsValue digits' := by
  constructor
  · rintro rfl
    rfl
  · intro hvalue
    rcases Std.lt_trichotomy digits digits' with hless | heq | hmore
    · rw [digits_lt_iff h h' hlength] at hless
      omega
    · exact heq
    · rw [digits_lt_iff h' h hlength.symm] at hmore
      omega

/-! ## 2. Leading zeros -/

/-- A number in at least as many digits. -/
def zeroPadded (width n : Nat) : List Char :=
  List.replicate (width - (Nat.toDigits 10 n).length) '0' ++ Nat.toDigits 10 n

/-- The last digits of a number. -/
def lastDigits : Nat → Nat → List UInt8
  | 0, _ => []
  | width + 1, n => lastDigits width (n / 10) ++ [UInt8.ofNat (48 + n % 10)]

theorem length_lastDigits (width n : Nat) : (lastDigits width n).length = width := by
  induction width generalizing n with
  | zero => rfl
  | succ width ih => rw [lastDigits, List.length_append, ih, List.length_singleton]

theorem toNat_digit {d : Nat} (h : d < 10) : (UInt8.ofNat (48 + d)).toNat = 48 + d := by
  rw [UInt8.toNat_ofNat']
  omega

theorem isDigits_lastDigits (width n : Nat) : IsDigits (lastDigits width n) := by
  induction width generalizing n with
  | zero => simp [lastDigits, IsDigits]
  | succ width ih =>
    refine (ih (n / 10)).append ?_
    intro b hb
    rw [List.mem_singleton.mp hb, toNat_digit (Nat.mod_lt _ (by decide))]
    omega

theorem digitsValue_lastDigits (width n : Nat) :
    digitsValue (lastDigits width n) = n % 10 ^ width := by
  induction width generalizing n with
  | zero => simp [lastDigits, digitsValue, Nat.mod_one]
  | succ width ih =>
    rw [lastDigits, digitsValue_append, ih, digitsValue_cons,
      toNat_digit (Nat.mod_lt _ (by decide)), pow_succ', Nat.mod_mul]
    simp [digitsValue]
    omega

theorem lastDigits_digitsValue (h : IsDigits digits) :
    lastDigits digits.length (digitsValue digits) = digits := by
  rw [digits_eq_iff (isDigits_lastDigits _ _) h (length_lastDigits _ _), digitsValue_lastDigits]
  exact Nat.mod_eq_of_lt (digitsValue_lt h)

/-- Numbers of one width in front of words are compared first. -/
theorem lastDigits_append_lt {width n n' : Nat} (h : n < 10 ^ width) (h' : n' < 10 ^ width)
    {rest rest' : List UInt8} : lastDigits width n ++ rest < lastDigits width n' ++ rest' ↔
      n < n' ∨ n = n' ∧ rest < rest' := by
  have hlength : (lastDigits width n).length = (lastDigits width n').length := by
    rw [length_lastDigits, length_lastDigits]
  have hdigits := isDigits_lastDigits width n
  have hdigits' := isDigits_lastDigits width n'
  rw [lex_append_lt_append hlength, digits_lt_iff hdigits hdigits' hlength,
    digits_eq_iff hdigits hdigits' hlength, digitsValue_lastDigits, digitsValue_lastDigits,
    Nat.mod_eq_of_lt h, Nat.mod_eq_of_lt h']

theorem encodeUtf8_digitChar {d : Nat} (h : d < 10) :
    encodeUtf8 [Nat.digitChar d] = [UInt8.ofNat (48 + d)] := by
  interval_cases d <;> decide

theorem encodeUtf8_zeros (width : Nat) :
    encodeUtf8 (List.replicate width '0') = lastDigits width 0 := by
  induction width with
  | zero => rfl
  | succ width ih =>
    rw [List.replicate_succ', encodeUtf8_append, ih]
    rfl

/-- **A number that fits in the width** is written as its last digits. -/
theorem encodeUtf8_zeroPadded {width n : Nat} (hwidth : 0 < width) (h : n < 10 ^ width) :
    encodeUtf8 (zeroPadded width n) = lastDigits width n := by
  induction width generalizing n with
  | zero => cases hwidth
  | succ width ih =>
    unfold zeroPadded
    by_cases hsmall : n < 10
    · rw [Nat.toDigits_of_lt_base hsmall, encodeUtf8_append, List.length_singleton,
        Nat.add_sub_cancel, encodeUtf8_zeros, encodeUtf8_digitChar hsmall, lastDigits,
        Nat.div_eq_of_lt hsmall, Nat.mod_eq_of_lt hsmall]
    · have hsplit : Nat.toDigits 10 n
          = Nat.toDigits 10 (n / 10) ++ [Nat.digitChar (n % 10)] := by
        rw [Nat.toDigits_eq_if (by decide), if_neg hsmall]
      have hquotient : n / 10 < 10 ^ width := by
        rw [pow_succ] at h
        omega
      have hpositive : 0 < width := by
        rcases Nat.eq_zero_or_pos width with rfl | hpos
        · simp at hquotient
          omega
        · exact hpos
      have hinner := ih hpositive hquotient
      rw [hsplit, List.length_append, List.length_singleton, Nat.add_sub_add_right,
        ← List.append_assoc, encodeUtf8_append, encodeUtf8_digitChar (Nat.mod_lt _ (by decide)),
        lastDigits]
      exact congrArg (· ++ _) hinner

end Foundation
