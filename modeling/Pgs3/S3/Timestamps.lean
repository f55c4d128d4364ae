import Pgs3.Foundation.Calendar
import Pgs3.Foundation.Digits
import Pgs3.Protocol.SigV4

/-!
# Timestamps

Translation of `civil_from_days` and `iso8601` of `s3/xml.rs`.  Requests carry the time as a
text that `parse_amz_timestamp` of `protocol/sigv4.rs` turns into seconds, responses carry times
that `iso8601` writes, and the two use different formulas for the calendar.  Both are those of
the years that begin in March, so they are inverse to each other.
-/

namespace Pgs3.S3

open Pgs3 Foundation Protocol

variable {year month day width start : Nat} {value : Bytes}

/-! ## 1. Definitions -/

/-- `civil_from_days`, as year, month and day. -/
def civilFromDays (daysSinceEpoch : Int) : Int × Int × Int :=
  let z := daysSinceEpoch + 719468
  let era := (if z ≥ 0 then z else z - 146096).tdiv 146097
  let doe := z - era * 146097
  let yoe := (doe - doe.tdiv 1460 + doe.tdiv 36524 - doe.tdiv 146096).tdiv 365
  let year := yoe + era * 400
  let doy := doe - (365 * yoe + yoe.tdiv 4 - yoe.tdiv 100)
  let mp := (5 * doy + 2).tdiv 153
  let day := doy - (153 * mp + 2).tdiv 5 + 1
  let month := mp + (if mp < 10 then 3 else -9)
  (year + (if month ≤ 2 then 1 else 0), month, day)

/-- `format!` with a width and leading zeros; a sign counts for the width. -/
def formatPadded (width : Nat) (value : Int) : Text :=
  if value < 0 then '-' :: zeroPadded (width - 1) value.natAbs
  else zeroPadded width value.natAbs

def iso8601 (milliseconds : Int) : Text :=
  let seconds := milliseconds.ediv 1000
  let millis := milliseconds.emod 1000
  let days := seconds.ediv 86400
  let secondsOfDay := seconds.emod 86400
  let (year, month, day) := civilFromDays days
  let hour := secondsOfDay.tdiv 3600
  let minute := (secondsOfDay.tmod 3600).tdiv 60
  let second := secondsOfDay.tmod 60
  formatPadded 4 year ++ ['-'] ++ formatPadded 2 month ++ ['-'] ++ formatPadded 2 day ++ ['T']
    ++ formatPadded 2 hour ++ [':'] ++ formatPadded 2 minute ++ [':'] ++ formatPadded 2 second
    ++ ['.'] ++ formatPadded 3 millis ++ ['Z']

/-! ## 2. Years that begin in March -/

/-- A date that the calendar has. -/
structure ValidDate (year month day : Nat) : Prop where
  month_pos : 1 ≤ month
  month_le : month ≤ 12
  day_pos : 1 ≤ day
  day_le : day ≤ daysInMonth year month

def marchYear (year month : Nat) : Nat := if month ≤ 2 then year - 1 else year

def marchMonth (month : Nat) : Nat := if month ≤ 2 then month + 9 else month - 3

def marchDay (month day : Nat) : Nat := monthStart (marchMonth month) + (day - 1)

theorem daysFromCivil_eq (hyear : 1 ≤ year) (hday : 1 ≤ day) : daysFromCivil year month day
      = daysBefore (marchYear year month) + marchDay month day - 719468 := by
  have hediv : ∀ a b : Int, a.ediv b = a / b := fun _ _ => rfl
  unfold daysFromCivil daysBefore marchDay monthStart marchYear marchMonth
  by_cases hearly : month ≤ 2
  · simp only [hediv, hearly, if_true, Nat.not_lt.mpr hearly, if_false]
    omega
  · simp only [hediv, hearly, if_false, Nat.lt_of_not_le hearly, if_true]
    omega

theorem ValidDate.march (h : ValidDate year month day) (hyear : 1 ≤ year) :
    marchMonth month ≤ 11 ∧ marchDay month day < monthStart (marchMonth month + 1)
      ∧ daysBefore (marchYear year month) + marchDay month day
          < daysBefore (marchYear year month + 1) := by
  rcases h with ⟨hpos, hle, hday, hlength⟩
  unfold daysBefore marchDay monthStart marchYear marchMonth
  unfold daysInMonth at hlength
  interval_cases month
  all_goals
    simp at hlength ⊢
    try split at hlength
    all_goals omega

theorem ValidDate.of_march (hyear : 1 ≤ year) (hpos : 1 ≤ month) (hle : month ≤ 12)
    (hday : 1 ≤ day) (hmonthEnd : marchDay month day < monthStart (marchMonth month + 1))
    (hyearEnd : daysBefore (marchYear year month) + marchDay month day
      < daysBefore (marchYear year month + 1)) : ValidDate year month day := by
  refine ⟨hpos, hle, hday, ?_⟩
  unfold daysBefore marchDay monthStart marchYear marchMonth at hyearEnd
  unfold marchDay monthStart marchMonth at hmonthEnd
  unfold daysInMonth
  interval_cases month
  all_goals
    simp at hyearEnd hmonthEnd ⊢
    try split
    all_goals omega

variable {days : Int}

theorem civilFromDays_of_steps {z era doe yoe doy mp : Int} (hz : days + 719468 = z)
    (hera : (if z ≥ 0 then z else z - 146096).tdiv 146097 = era) (hdoe : z - era * 146097 = doe)
    (hyoe : (doe - doe.tdiv 1460 + doe.tdiv 36524 - doe.tdiv 146096).tdiv 365 = yoe)
    (hdoy : doe - (365 * yoe + yoe.tdiv 4 - yoe.tdiv 100) = doy)
    (hmp : (5 * doy + 2).tdiv 153 = mp) :
    civilFromDays days
      = (yoe + era * 400 + (if mp + (if mp < 10 then 3 else -9) ≤ 2 then 1 else 0),
          mp + (if mp < 10 then 3 else -9), doy - (153 * mp + 2).tdiv 5 + 1) := by
  subst hz hera hdoe hyoe hdoy hmp
  rfl

/-- `civil_from_days` on a day given by its era, its year of the era and its day of the year. -/
theorem civilFromDays_march {era yoe doy : Nat} (hyoe : yoe < 400)
    (hend : yearStart yoe + doy < yearEnd yoe)
    (h : days + 719468 = ((era * 146097 + (yearStart yoe + doy) : Nat) : Int)) :
    civilFromDays days
      = (((era * 400 + yoe + (if 10 ≤ monthOf doy then 1 else 0) : Nat) : Int),
          ((if 10 ≤ monthOf doy then monthOf doy - 9 else monthOf doy + 3 : Nat) : Int),
          ((doy - monthStart (monthOf doy) + 1 : Nat) : Int)) := by
  have hyear := yearOf_eq hyoe (Nat.le_add_right _ doy) hend
  have hdoe : yearStart yoe + doy < 146097 := by
    unfold yearEnd yearStart at hend
    unfold yearStart
    omega
  have hlast : doy < 366 := by
    unfold yearEnd yearStart at hend
    omega
  have hmonth : monthStart (monthOf doy) ≤ doy := (monthOf_eq_iff.mp rfl).1
  unfold yearOf commonDay at hyear
  have hstart : yearStart yoe = 365 * yoe + yoe / 4 - yoe / 100 := rfl
  have hmp : monthOf doy = (5 * doy + 2) / 153 := rfl
  have hday : monthStart (monthOf doy) = (153 * monthOf doy + 2) / 5 := rfl
  have htdiv : ∀ {a : Int} (b : Int), 0 ≤ a → a.tdiv b = a / b :=
    fun b ha => Int.tdiv_eq_ediv_of_nonneg ha
  rw [@civilFromDays_of_steps days _ era (yearStart yoe + doy : Nat) yoe doy (monthOf doy) h]
  · rw [htdiv 5 (by omega)]
    clear hyear hdoe hstart h hend
    simp only [Prod.mk.injEq]
    split_ifs <;> omega
  · rw [if_pos (Int.natCast_nonneg _), htdiv _ (Int.natCast_nonneg _)]
    omega
  · omega
  · generalize yearStart yoe + doy = doe at *
    rw [htdiv 1460 (by omega), htdiv 36524 (by omega), htdiv 146096 (by omega),
      htdiv 365 (by omega)]
    omega
  · rw [htdiv 4 (by omega), htdiv 100 (by omega)]
    omega
  · rw [htdiv 153 (by omega)]
    omega

/-! ## 3. The two formulas -/

/-- **`civil_from_days` inverts `days_from_civil`.** -/
theorem civilFromDays_daysFromCivil (h : ValidDate year month day) (hyear : 1 ≤ year) :
    civilFromDays (daysFromCivil year month day) = ((year : Int), (month : Int), (day : Int)) := by
  rcases h.march hyear with ⟨hmonth, hmonthEnd, hyearEnd⟩
  have hpos := h.day_pos
  have hmonths := And.intro h.month_pos h.month_le
  have hsplit := Nat.div_add_mod' (marchYear year month) 400
  have hbefore := daysBefore_era (marchYear year month / 400) (marchYear year month % 400)
  have hafter := daysBefore_era (marchYear year month / 400) (marchYear year month % 400 + 1)
  rw [← Nat.add_assoc, hsplit] at hafter
  rw [hsplit] at hbefore
  have hstart : monthStart (marchMonth month) ≤ marchDay month day := Nat.le_add_right _ _
  have hmonthOf := monthOf_eq_iff.mpr ⟨hstart, hmonthEnd⟩
  have hend : yearStart (marchYear year month % 400) + marchDay month day
      < yearEnd (marchYear year month % 400) := by
    rw [hbefore] at hyearEnd
    rw [← Nat.cast_succ, hafter] at hyearEnd
    unfold yearEnd
    omega
  rw [@civilFromDays_march _ (marchYear year month / 400) (marchYear year month % 400)
    (marchDay month day) (Nat.mod_lt _ (by decide)) hend, hmonthOf]
  · unfold marchDay marchMonth marchYear
    simp only [Prod.mk.injEq]
    split_ifs <;> omega
  · rw [daysFromCivil_eq hyear hpos, hbefore]
    omega

theorem exists_march (marchYear' : Nat) {mp : Nat} (h : mp ≤ 11) : ∃ year month,
    marchYear year month = marchYear' ∧ marchMonth month = mp ∧ 1 ≤ month ∧ month ≤ 12
      ∧ (mp < 10 → year = marchYear') ∧ (10 ≤ mp → year = marchYear' + 1) := by
  unfold marchYear marchMonth
  by_cases hlate : 10 ≤ mp
  · refine ⟨marchYear' + 1, mp - 9, ?_⟩
    rw [if_pos (by omega), if_pos (by omega)]
    omega
  · refine ⟨marchYear', mp + 3, ?_⟩
    rw [if_neg (by omega), if_neg (by omega)]
    omega

theorem exists_date (h : 0 ≤ days) : ∃ year month day,
    1970 ≤ year ∧ ValidDate year month day ∧ daysFromCivil year month day = days := by
  rcases Int.eq_ofNat_of_zero_le (show 0 ≤ days + 719468 by omega) with ⟨z, hz⟩
  rcases yearOf_spec (Nat.mod_lt z (show 0 < 146097 by decide)) with ⟨hyoe, hstart, hend⟩
  generalize hyear : yearOf (z % 146097) = yoe at hyoe hstart hend
  rcases Nat.exists_eq_add_of_le hstart with ⟨doy, hdoy⟩
  rcases monthOf_eq_iff.mp (Eq.refl (monthOf doy)) with ⟨hmonthStart, hmonthEnd⟩
  generalize monthOf doy = mp at hmonthStart hmonthEnd
  have hmp : mp ≤ 11 := by
    unfold yearEnd yearStart at hend
    unfold yearStart at hdoy
    unfold monthStart at hmonthStart
    omega
  rcases exists_march (z / 146097 * 400 + yoe) hmp with
    ⟨year, month, hmarchYear, hmarchMonth, hpos, hle, hearly, hlate⟩
  have hmarchDay : marchDay month (doy - monthStart mp + 1) = doy := by
    unfold marchDay
    rw [hmarchMonth]
    omega
  have hbefore := daysBefore_era (z / 146097) yoe
  have hafter := daysBefore_era (z / 146097) (yoe + 1)
  have hyears : 1970 ≤ year := by
    unfold yearStart at hdoy
    unfold monthStart at hmonthEnd
    omega
  have hone : 1 ≤ year := Nat.le_trans (by decide) hyears
  refine ⟨year, month, doy - monthStart mp + 1, hyears, ?_, ?_⟩
  · apply ValidDate.of_march hone hpos hle (Nat.le_add_left 1 _)
    · rw [hmarchDay, hmarchMonth]
      exact hmonthEnd
    · rw [hmarchDay, hmarchYear, hbefore]
      rw [← Nat.cast_succ, Nat.succ_eq_add_one, Nat.add_assoc, hafter]
      unfold yearEnd at hend
      omega
  · rw [daysFromCivil_eq hone (Nat.le_add_left 1 _), hmarchDay, hmarchYear, hbefore]
    omega

/-! ## 4. The order of dates -/

/-- The day after a date. -/
def nextDate (year month day : Nat) : Nat × Nat × Nat :=
  if day < daysInMonth year month then (year, month, day + 1)
  else if month < 12 then (year, month + 1, 1)
  else (year + 1, 1, 1)

/-- **Consecutive dates have consecutive numbers.** -/
theorem daysFromCivil_nextDate (h : ValidDate year month day) (hyear : 1 ≤ year) :
    daysFromCivil (nextDate year month day).1 (nextDate year month day).2.1
        (nextDate year month day).2.2 = daysFromCivil year month day + 1 := by
  rcases h with ⟨hpos, hle, hday, hlength⟩
  unfold nextDate
  split
  · dsimp only
    rw [daysFromCivil_eq hyear (Nat.le_add_left 1 _), daysFromCivil_eq hyear hday]
    unfold marchDay
    omega
  · rename_i hlast
    have heq : day = daysInMonth year month := by omega
    split
    · rw [daysFromCivil_eq hyear le_rfl, daysFromCivil_eq hyear hday]
      unfold daysBefore marchDay monthStart marchYear marchMonth
      unfold daysInMonth at heq
      interval_cases month
      all_goals
        simp at heq ⊢
        try split at heq
        all_goals omega
    · have hmonth : month = 12 := by omega
      subst hmonth
      have hdays : daysInMonth year 12 = 31 := by simp [daysInMonth]
      dsimp only
      rw [daysFromCivil_eq (Nat.le_add_left 1 _) le_rfl, daysFromCivil_eq hyear hday, heq, hdays]
      have hsame : marchYear (year + 1) 1 = marchYear year 12 := rfl
      have hwinter : marchDay 1 1 = marchDay 12 31 + 1 := by decide
      rw [hsame, hwinter]
      omega

/-- Dates in the order of the calendar. -/
def DateBefore (year month day year' month' day' : Nat) : Prop :=
  year < year' ∨ year = year' ∧ (month < month' ∨ month = month' ∧ day < day')

theorem daysFromCivil_lt {year' month' day' : Nat} (h : ValidDate year month day)
    (h' : ValidDate year' month' day') (hyear : 1 ≤ year) (hyear' : 1 ≤ year')
    (hbefore : DateBefore year month day year' month' day') :
    daysFromCivil year month day < daysFromCivil year' month' day' := by
  rcases h.march hyear with ⟨_, hmonthEnd, hyearEnd⟩
  have hmonth := And.intro h.month_pos h.month_le
  have hmonth' := And.intro h'.month_pos h'.month_le
  have hmarch : marchYear year month < marchYear year' month'
      ∨ marchYear year month = marchYear year' month'
        ∧ (marchMonth month < marchMonth month'
          ∨ marchMonth month = marchMonth month' ∧ day < day') := by
    unfold DateBefore at hbefore
    unfold marchYear marchMonth
    split_ifs <;> omega
  rw [daysFromCivil_eq hyear h.day_pos, daysFromCivil_eq hyear' h'.day_pos]
  rcases hmarch with hless | ⟨heq, hless | ⟨hsame, hless⟩⟩
  · have hle : daysBefore (marchYear year month + 1) ≤ daysBefore (marchYear year' month') :=
      daysBefore_le (by exact_mod_cast hless)
    omega
  · have hle : monthStart (marchMonth month + 1) ≤ monthStart (marchMonth month') :=
      monthStart_le hless
    have hstart : monthStart (marchMonth month') ≤ marchDay month' day' := Nat.le_add_right _ _
    rw [heq]
    omega
  · have hpos := h.day_pos
    unfold marchDay
    rw [heq, hsame]
    omega

/-- **The number of a date grows with the date.** -/
theorem daysFromCivil_lt_iff {year' month' day' : Nat} (h : ValidDate year month day)
    (h' : ValidDate year' month' day') (hyear : 1 ≤ year) (hyear' : 1 ≤ year') :
    daysFromCivil year month day < daysFromCivil year' month' day' ↔
      DateBefore year month day year' month' day' := by
  refine ⟨fun hlt => ?_, daysFromCivil_lt h h' hyear hyear'⟩
  by_contra hnot
  by_cases hsame : year = year' ∧ month = month' ∧ day = day'
  · rcases hsame with ⟨rfl, rfl, rfl⟩
    exact lt_irrefl _ hlt
  · have hafter : DateBefore year' month' day' year month day := by
      unfold DateBefore at hnot ⊢
      omega
    exact lt_asymm hlt (daysFromCivil_lt h' h hyear' hyear hafter)

/-! ## 5. The timestamps of requests -/

theorem isAsciiDigit_iff {b : UInt8} : isAsciiDigit b = true ↔ 48 ≤ b.toNat ∧ b.toNat ≤ 57 := by
  simp [isAsciiDigit, UInt8.le_iff_toNat_le]

structure TimeFields where
  year : Nat
  month : Nat
  day : Nat
  hour : Nat
  minute : Nat
  second : Nat

namespace TimeFields

/-- The fields are those of a time between 1970 and 9999. -/
structure Valid (fields : TimeFields) : Prop where
  year_ge : 1970 ≤ fields.year
  year_le : fields.year ≤ 9999
  date : ValidDate fields.year fields.month fields.day
  hour_le : fields.hour ≤ 23
  minute_le : fields.minute ≤ 59
  second_le : fields.second ≤ 59

def secondOfDay (fields : TimeFields) : Nat :=
  fields.hour * 3600 + fields.minute * 60 + fields.second

def seconds (fields : TimeFields) : Int :=
  daysFromCivil fields.year fields.month fields.day * 86400 + fields.secondOfDay

/-- The text of a time in a request. -/
def text (fields : TimeFields) : Bytes :=
  lastDigits 4 fields.year ++ (lastDigits 2 fields.month ++ (lastDigits 2 fields.day ++ 84 ::
    (lastDigits 2 fields.hour ++ (lastDigits 2 fields.minute ++
      (lastDigits 2 fields.second ++ [90])))))

variable {fields : TimeFields}

theorem Valid.seconds_bounds (h : fields.Valid) :
    0 ≤ daysFromCivil fields.year fields.month fields.day
      ∧ daysFromCivil fields.year fields.month fields.day ≤ 2932896
      ∧ fields.secondOfDay < 86400 := by
  rcases h with ⟨hge, hle, hdate, hhour, hminute, hsecond⟩
  have hone : 1 ≤ fields.year := Nat.le_trans (by decide) hge
  have hepoch : ¬ daysFromCivil fields.year fields.month fields.day < daysFromCivil 1970 1 1 := by
    rw [daysFromCivil_lt_iff hdate ⟨le_rfl, by decide, le_rfl, by decide⟩ hone (by decide)]
    have hmonth := hdate.month_pos
    have hday := hdate.day_pos
    unfold DateBefore
    omega
  have hlast := daysFromCivil_lt hdate ⟨le_rfl, by decide, le_rfl, by decide⟩ hone
    (show 1 ≤ 10000 by decide) (Or.inl (Nat.lt_succ_of_le hle) : DateBefore _ _ _ 10000 1 1)
  rw [show daysFromCivil 1970 1 1 = 0 by decide] at hepoch
  rw [show daysFromCivil 10000 1 1 = 2932897 by decide] at hlast
  unfold secondOfDay
  omega

theorem isAsciiDigit_ofNat (n : Nat) : isAsciiDigit (48 + UInt8.ofNat (n % 10)) = true := by
  change isAsciiDigit (UInt8.ofNat 48 + UInt8.ofNat (n % 10)) = true
  rw [← UInt8.ofNat_add]
  have hdigit := toNat_digit (Nat.mod_lt n (show 0 < 10 by decide))
  have hmod := Nat.mod_lt n (show 0 < 10 by decide)
  rw [isAsciiDigit_iff, hdigit]
  omega

theorem length_text (fields : TimeFields) : fields.text.length = 16 := by
  simp [text, length_lastDigits]

theorem field_text (fields : TimeFields) : (fields.text.drop 0).take 4 = lastDigits 4 fields.year
      ∧ (fields.text.drop 4).take 2 = lastDigits 2 fields.month
      ∧ (fields.text.drop 6).take 2 = lastDigits 2 fields.day
      ∧ (fields.text.drop 9).take 2 = lastDigits 2 fields.hour
      ∧ (fields.text.drop 11).take 2 = lastDigits 2 fields.minute
      ∧ (fields.text.drop 13).take 2 = lastDigits 2 fields.second := by
  simp [text, lastDigits]

theorem digits_text (fields : TimeFields) : fields.text.getD 8 0 = 84 ∧ fields.text.getD 15 0 = 90
      ∧ (fields.text.zipIdx.all fun entry =>
          entry.2 = 8 || entry.2 = 15 || isAsciiDigit entry.1) = true := by
  simp [text, lastDigits, List.zipIdx, isAsciiDigit_ofNat]

def fieldAt (value : Bytes) (start width : Nat) : Nat :=
  decimal ((value.drop start).take width)

/-- The fields that the parser reads. -/
def ofText (value : Bytes) : TimeFields :=
  ⟨fieldAt value 0 4, fieldAt value 4 2, fieldAt value 6 2, fieldAt value 9 2,
    fieldAt value 11 2, fieldAt value 13 2⟩

theorem decimal_lastDigits {n : Nat} (h : n < 10 ^ width) : decimal (lastDigits width n) = n :=
  (digitsValue_lastDigits width n).trans (Nat.mod_eq_of_lt h)

theorem daysInMonth_le (year month : Nat) : daysInMonth year month ≤ 31 := by
  unfold daysInMonth
  split_ifs <;> decide

theorem Valid.widths (h : fields.Valid) :
    fields.year < 10 ^ 4 ∧ fields.month < 10 ^ 2 ∧ fields.day < 10 ^ 2 ∧ fields.hour < 10 ^ 2
      ∧ fields.minute < 10 ^ 2 ∧ fields.second < 10 ^ 2 := by
  rcases h with ⟨_, hyear, hdate, hhour, hminute, hsecond⟩
  have hmonth := hdate.month_le
  have hday := hdate.day_le.trans (daysInMonth_le _ _)
  omega

theorem Valid.ofText_text (h : fields.Valid) : ofText fields.text = fields := by
  rcases h.widths with ⟨hyear, hmonth, hday, hhour, hminute, hsecond⟩
  rcases fields.field_text with ⟨hy, hm, hd, hh, hmi, hs⟩
  unfold ofText fieldAt
  rw [hy, hm, hd, hh, hmi, hs, decimal_lastDigits hyear, decimal_lastDigits hmonth,
    decimal_lastDigits hday, decimal_lastDigits hhour, decimal_lastDigits hminute,
    decimal_lastDigits hsecond]

theorem isDigits_field (hall : (value.zipIdx.all fun entry =>
      entry.2 = 8 || entry.2 = 15 || isAsciiDigit entry.1) = true)
    (h : start + width ≤ 8 ∨ 9 ≤ start ∧ start + width ≤ 15) :
    IsDigits ((value.drop start).take width) := by
  intro b hb
  rcases List.mem_iff_getElem?.mp hb with ⟨i, hi⟩
  rw [List.getElem?_take] at hi
  split at hi
  · rename_i hlt
    rw [List.getElem?_drop] at hi
    have hentry := List.all_eq_true.mp hall (b, start + i)
      (List.mem_zipIdx_iff_getElem?.mpr hi)
    simp only [Bool.or_eq_true, decide_eq_true_eq] at hentry
    rcases hentry with (hletter | hletter) | hdigit
    · omega
    · omega
    · exact isAsciiDigit_iff.mp hdigit
  · cases hi

theorem lastDigits_fieldAt (hlength : start + width ≤ value.length)
    (h : IsDigits ((value.drop start).take width)) :
    lastDigits width (fieldAt value start width) ++ value.drop (start + width)
      = value.drop start := by
  have hwidth : ((value.drop start).take width).length = width := by
    rw [List.length_take, List.length_drop]
    omega
  have hdigits := lastDigits_digitsValue h
  rw [hwidth] at hdigits
  change lastDigits width (digitsValue _) ++ _ = _
  rw [hdigits, ← List.drop_drop, List.take_append_drop]

theorem letter_append {letter : UInt8} (hlength : start < value.length)
    (h : value.getD start 0 = letter) : letter :: value.drop (start + 1) = value.drop start := by
  rw [List.drop_eq_getElem_cons hlength, ← h, List.getD_eq_getElem _ _ hlength]

theorem text_ofText (hlength : value.length = 16) (ht : value.getD 8 0 = 84)
    (hz : value.getD 15 0 = 90) (hall : (value.zipIdx.all fun entry =>
      entry.2 = 8 || entry.2 = 15 || isAsciiDigit entry.1) = true) :
    (ofText value).text = value := by
  have hfield : ∀ start width, start + width ≤ 8 ∨ 9 ≤ start ∧ start + width ≤ 15 →
      lastDigits width (fieldAt value start width) ++ value.drop (start + width)
        = value.drop start := by
    intro start width h
    exact lastDigits_fieldAt (by omega) (isDigits_field hall h)
  have hend : [90] = value.drop 15 := by
    rw [← letter_append (by omega) hz, List.drop_eq_nil_of_le (by omega)]
  unfold text ofText
  dsimp only
  rw [hend, hfield 13 2 (by omega), hfield 11 2 (by omega), hfield 9 2 (by omega),
    letter_append (by omega) ht, hfield 6 2 (by omega), hfield 4 2 (by omega),
    hfield 0 4 (by omega), List.drop_zero]

theorem fieldAt_le (hlength : start + width ≤ value.length)
    (h : IsDigits ((value.drop start).take width)) : fieldAt value start width < 10 ^ width := by
  have hlt := digitsValue_lt h
  rw [List.length_take, List.length_drop, Nat.min_eq_left (by omega)] at hlt
  exact hlt

theorem checkedI64_eq {value : Int} (h : -2 ^ 63 ≤ value ∧ value ≤ i64Max) :
    checkedI64 value = some value := if_pos h

/-- The sums of the parser do not overflow. -/
theorem Valid.checked_seconds (h : fields.Valid) :
    (do
      let seconds ← checkedI64 (daysFromCivil fields.year fields.month fields.day * 86400)
      checkedI64 (seconds
        + (fields.hour * 3600 + fields.minute * 60 + fields.second : Nat))) = some fields.seconds := by
  rcases h.seconds_bounds with ⟨hnonneg, hbound, hday⟩
  unfold secondOfDay at hday
  have hmul := checkedI64_eq (show -2 ^ 63 ≤ daysFromCivil fields.year fields.month fields.day * 86400
    ∧ daysFromCivil fields.year fields.month fields.day * 86400 ≤ i64Max by
      unfold i64Max
      omega)
  rw [hmul]
  apply checkedI64_eq
  unfold i64Max
  omega

/-- **The parser accepts the texts of valid times**, and returns their seconds. -/
theorem parseAmzTimestamp_eq_ok {t : Int} : parseAmzTimestamp value = .ok t ↔
      ∃ fields : TimeFields, fields.Valid ∧ value = fields.text ∧ t = fields.seconds := by
  simp only [parseAmzTimestamp, bind_eq_ok, ensure_eq_ok, okOr_eq_ok]
  constructor
  · rintro ⟨_, ⟨hlength, ht, hz⟩, _, hall, _, hfields, hsum⟩
    rcases hfields with ⟨hyear, hmonth, hmonths, hday, hdays, hhour, hminute, hsecond⟩
    have hyears := fieldAt_le (show 0 + 4 ≤ value.length by omega)
      (isDigits_field hall (Or.inl (by decide)))
    have hvalid : (ofText value).Valid :=
      ⟨hyear, Nat.le_of_lt_succ hyears, ⟨hmonth, hmonths, Nat.one_le_iff_ne_zero.mpr hday, hdays⟩,
        hhour, hminute, hsecond⟩
    exact ⟨ofText value, hvalid, (text_ofText hlength ht hz hall).symm,
      Option.some.inj (hsum.symm.trans hvalid.checked_seconds)⟩
  · rintro ⟨fields, h, rfl, rfl⟩
    rcases fields.digits_text with ⟨ht, hz, hall⟩
    have hread := h.ofText_text
    have hsum := h.checked_seconds
    have hvalid := h
    rw [← hread] at hsum hvalid
    refine ⟨(), ⟨fields.length_text, ht, hz⟩, (), hall, (), ?_, ?_⟩
    · exact ⟨hvalid.year_ge, hvalid.date.month_pos, hvalid.date.month_le,
        Nat.one_le_iff_ne_zero.mp hvalid.date.day_pos, hvalid.date.day_le, hvalid.hour_le,
        hvalid.minute_le, hvalid.second_le⟩
    · exact hsum.trans (congrArg (fun fields => some (seconds fields)) hread)

/-- **Texts are ordered as the times they stand for.** -/
theorem Valid.text_lt_iff {fields' : TimeFields} (h : fields.Valid) (h' : fields'.Valid) :
    fields.text < fields'.text ↔ fields.seconds < fields'.seconds := by
  have hone : 1 ≤ fields.year := Nat.le_trans (by decide) h.year_ge
  have hone' : 1 ≤ fields'.year := Nat.le_trans (by decide) h'.year_ge
  have hdate := daysFromCivil_lt_iff h.date h'.date hone hone'
  have hdate' := daysFromCivil_lt_iff h'.date h.date hone' hone
  have hday := h.seconds_bounds.2.2
  have hday' := h'.seconds_bounds.2.2
  rcases h.widths with ⟨hy, hm, hd, hh, hmi, hs⟩
  rcases h'.widths with ⟨hy', hm', hd', hh', hmi', hs'⟩
  have htext : fields.text < fields'.text ↔
      DateBefore fields.year fields.month fields.day fields'.year fields'.month fields'.day
      ∨ (fields.year = fields'.year ∧ fields.month = fields'.month ∧ fields.day = fields'.day)
        ∧ fields.secondOfDay < fields'.secondOfDay := by
    unfold text DateBefore secondOfDay
    have hminutes := And.intro h.minute_le h'.minute_le
    have hseconds := And.intro h.second_le h'.second_le
    have hletter : ¬ (84 : UInt8) < 84 := by decide
    have hend : ¬ ([90] : Bytes) < [90] := by decide
    clear hdate hdate' hday hday'
    rw [lastDigits_append_lt hy hy', lastDigits_append_lt hm hm', lastDigits_append_lt hd hd',
      List.cons_lt_cons_iff, lastDigits_append_lt hh hh', lastDigits_append_lt hmi hmi',
      lastDigits_append_lt hs hs']
    simp only [hletter, hend, true_and, false_or, and_false, or_false]
    omega
  rw [htext, ← hdate]
  unfold seconds
  constructor
  · rintro (hlt | ⟨⟨hyear, hmonth, hsame⟩, hlt⟩)
    · omega
    · rw [hyear, hmonth, hsame]
      omega
  · intro hlt
    by_cases hbefore : daysFromCivil fields.year fields.month fields.day
        < daysFromCivil fields'.year fields'.month fields'.day
    · exact Or.inl hbefore
    · have hnot : ¬ DateBefore fields'.year fields'.month fields'.day fields.year fields.month
          fields.day := by
        rw [← hdate']
        omega
      rw [hdate] at hbefore
      unfold DateBefore at hbefore hnot
      have hyear : fields.year = fields'.year := by omega
      have hmonth : fields.month = fields'.month := by omega
      have hsame : fields.day = fields'.day := by omega
      rw [hyear, hmonth, hsame] at hlt
      exact Or.inr ⟨⟨hyear, hmonth, hsame⟩, by omega⟩

end TimeFields

/-! ## 6. The timestamps of responses -/

/-- The fields of an ISO 8601 text down to the seconds, without the separators. -/
def amzForm (iso : Bytes) : Bytes := (iso.take 19).filter (fun b => b ≠ 45 ∧ b ≠ 58) ++ [90]

theorem encodeUtf8_formatPadded {n : Nat} (hwidth : 0 < width) (h : n < 10 ^ width) :
    encodeUtf8 (formatPadded width n) = lastDigits width n := by
  rw [formatPadded, if_neg (not_lt.mpr (Int.natCast_nonneg n)), Int.natAbs_natCast,
    encodeUtf8_zeroPadded hwidth h]

theorem filter_lastDigits (width n : Nat) :
    (lastDigits width n).filter (fun b => b ≠ 45 ∧ b ≠ 58) = lastDigits width n := by
  rw [List.filter_eq_self]
  intro b hb
  have hdigit := isDigits_lastDigits width n b hb
  have hdash : b ≠ 45 := by
    rintro rfl
    exact absurd hdigit.1 (by decide)
  have hcolon : b ≠ 58 := by
    rintro rfl
    exact absurd hdigit.2 (by decide)
  exact decide_eq_true ⟨hdash, hcolon⟩

theorem iso8601_of_date {milliseconds : Int}
    (hcivil : civilFromDays (milliseconds.ediv 1000 |>.ediv 86400)
      = ((year : Int), (month : Int), (day : Int))) {hour minute second millis : Nat}
    (hday : (milliseconds.ediv 1000).emod 86400 = (hour * 3600 + minute * 60 + second : Nat))
    (hminute : minute < 60) (hsecond : second < 60) (hmillis : milliseconds.emod 1000 = millis) :
    iso8601 milliseconds
      = formatPadded 4 year ++ ['-'] ++ formatPadded 2 month ++ ['-'] ++ formatPadded 2 day
        ++ ['T'] ++ formatPadded 2 hour ++ [':'] ++ formatPadded 2 minute ++ [':']
        ++ formatPadded 2 second ++ ['.'] ++ formatPadded 3 millis ++ ['Z'] := by
  have hnonneg : (0 : Int) ≤ (hour * 3600 + minute * 60 + second : Nat) := Int.natCast_nonneg _
  have hhours : ((hour * 3600 + minute * 60 + second : Nat) : Int).tdiv 3600 = hour := by
    rw [Int.tdiv_eq_ediv_of_nonneg hnonneg]
    omega
  have hminutes : (((hour * 3600 + minute * 60 + second : Nat) : Int).tmod 3600).tdiv 60
      = minute := by
    rw [Int.tmod_eq_emod_of_nonneg hnonneg, Int.tdiv_eq_ediv_of_nonneg (by omega)]
    omega
  have hseconds : ((hour * 3600 + minute * 60 + second : Nat) : Int).tmod 60 = second := by
    rw [Int.tmod_eq_emod_of_nonneg hnonneg]
    omega
  unfold iso8601
  simp only [hcivil, hday, hmillis, hhours, hminutes, hseconds]

theorem amzForm_fields (fields : TimeFields) (millis : Bytes) :
    amzForm (lastDigits 4 fields.year ++ encodeUtf8 ['-'] ++ lastDigits 2 fields.month
        ++ encodeUtf8 ['-'] ++ lastDigits 2 fields.day ++ encodeUtf8 ['T']
        ++ lastDigits 2 fields.hour ++ encodeUtf8 [':'] ++ lastDigits 2 fields.minute
        ++ encodeUtf8 [':'] ++ lastDigits 2 fields.second ++ encodeUtf8 ['.'] ++ millis
        ++ encodeUtf8 ['Z']) = fields.text := by
  have hdash : encodeUtf8 ['-'] = [45] := by decide
  have hcolon : encodeUtf8 [':'] = [58] := by decide
  have hletter : encodeUtf8 ['T'] = [84] := by decide
  rw [hdash, hcolon, hletter, List.append_assoc, List.append_assoc, amzForm, List.take_left']
  · simp only [List.filter_append, filter_lastDigits]
    simp [TimeFields.text]
  · simp [length_lastDigits]

theorem exists_time {seconds : Int} (h : 0 ≤ seconds)
    (hyear : (civilFromDays (seconds.ediv 86400)).1 ≤ 9999) :
    ∃ fields : TimeFields, fields.Valid ∧ fields.seconds = seconds
      ∧ civilFromDays (seconds.ediv 86400)
          = ((fields.year : Int), (fields.month : Int), (fields.day : Int)) ∧ seconds.emod 86400
          = (fields.hour * 3600 + fields.minute * 60 + fields.second : Nat) := by
  have hediv : ∀ a b : Int, a.ediv b = a / b := fun _ _ => rfl
  have hemod : ∀ a b : Int, a.emod b = a % b := fun _ _ => rfl
  rw [hediv] at hyear
  have hdays : 0 ≤ seconds / 86400 := by omega
  rcases exists_date hdays with ⟨year, month, day, hge, hvalid, hnumber⟩
  have hcivil := civilFromDays_daysFromCivil hvalid (Nat.le_trans (by decide) hge)
  rw [hnumber] at hcivil
  rw [hcivil] at hyear
  rcases Int.eq_ofNat_of_zero_le (Int.emod_nonneg seconds (show (86400 : Int) ≠ 0 by decide))
    with ⟨rest, hrest⟩
  have hlt := Int.emod_lt_of_pos seconds (show (0 : Int) < 86400 by decide)
  have hyear' : year ≤ 9999 := Int.ofNat_le.mp hyear
  refine ⟨⟨year, month, day, rest / 3600, rest % 3600 / 60, rest % 60⟩,
    ⟨hge, hyear', hvalid, ?_, ?_, ?_⟩, ?_, hcivil, ?_⟩
  · dsimp only
    omega
  · dsimp only
    omega
  · dsimp only
    omega
  · unfold TimeFields.seconds TimeFields.secondOfDay
    dsimp only
    omega
  · dsimp only
    rw [hemod]
    omega

/-- **`parse_amz_timestamp` reads the fields that `iso8601` writes.** -/
theorem parseAmzTimestamp_iso8601 {milliseconds : Int} (h : 0 ≤ milliseconds)
    (hyear : (civilFromDays (milliseconds.ediv 1000 |>.ediv 86400)).1 ≤ 9999) :
    parseAmzTimestamp (amzForm (encodeUtf8 (iso8601 milliseconds)))
      = .ok (milliseconds.ediv 1000) := by
  have hseconds : 0 ≤ milliseconds.ediv 1000 := Int.ediv_nonneg h (by decide)
  rcases exists_time hseconds hyear with ⟨fields, hvalid, htime, hcivil, hday⟩
  rcases Int.eq_ofNat_of_zero_le (Int.emod_nonneg milliseconds (show (1000 : Int) ≠ 0 by decide))
    with ⟨millis, hmillis⟩
  have hlt := Int.emod_lt_of_pos milliseconds (show (0 : Int) < 1000 by decide)
  have hminute := Nat.lt_succ_of_le hvalid.minute_le
  have hsecond := Nat.lt_succ_of_le hvalid.second_le
  have hiso := iso8601_of_date hcivil hday hminute hsecond hmillis
  rcases hvalid.widths with ⟨hy, hm, hd, hh, hmi, hs⟩
  have htext : amzForm (encodeUtf8 (iso8601 milliseconds)) = fields.text := by
    rw [hiso]
    simp only [encodeUtf8_append, encodeUtf8_formatPadded (by decide : 0 < 4) hy,
      encodeUtf8_formatPadded (by decide : 0 < 2) hm,
      encodeUtf8_formatPadded (by decide : 0 < 2) hd,
      encodeUtf8_formatPadded (by decide : 0 < 2) hh,
      encodeUtf8_formatPadded (by decide : 0 < 2) hmi,
      encodeUtf8_formatPadded (by decide : 0 < 2) hs]
    exact amzForm_fields fields _
  rw [htext, TimeFields.parseAmzTimestamp_eq_ok]
  exact ⟨fields, hvalid, rfl, htime.symm⟩

/-! ## 7. Agreement -/

/-- **The calendars agree**: the two formulas are inverse to each other from 1970 on, the next
    date has the next number, and the parser of timestamps keeps their order and reads what
    `iso8601` writes. -/
theorem calendar_conversions_agree :
    (∀ year month day : Nat, 1970 ≤ year → ValidDate year month day →
      civilFromDays (daysFromCivil year month day) = ((year : Int), (month : Int), (day : Int)))
    ∧ (∀ days : Int, 0 ≤ days → ∃ year month day : Nat,
        civilFromDays days = ((year : Int), (month : Int), (day : Int))
          ∧ 1970 ≤ year ∧ ValidDate year month day ∧ daysFromCivil year month day = days)
    ∧ (∀ year month day : Nat, 1970 ≤ year → ValidDate year month day →
      daysFromCivil (nextDate year month day).1 (nextDate year month day).2.1
          (nextDate year month day).2.2 = daysFromCivil year month day + 1)
    ∧ (∀ (value value' : Bytes) (t t' : Int), parseAmzTimestamp value = .ok t →
      parseAmzTimestamp value' = .ok t' → (value < value' ↔ t < t'))
    ∧ ∀ milliseconds : Int, 0 ≤ milliseconds →
      (civilFromDays (milliseconds.ediv 1000 |>.ediv 86400)).1 ≤ 9999 →
      parseAmzTimestamp (amzForm (encodeUtf8 (iso8601 milliseconds)))
        = .ok (milliseconds.ediv 1000) := by
  refine ⟨?_, ?_, ?_, ?_, fun milliseconds => parseAmzTimestamp_iso8601⟩
  · intro year month day hyear h
    exact civilFromDays_daysFromCivil h (Nat.le_trans (by decide) hyear)
  · intro days hdays
    rcases exists_date hdays with ⟨year, month, day, hyear, h, hnumber⟩
    have hcivil := civilFromDays_daysFromCivil h (Nat.le_trans (by decide) hyear)
    rw [hnumber] at hcivil
    exact ⟨year, month, day, hcivil, hyear, h, hnumber⟩
  · intro year month day hyear h
    exact daysFromCivil_nextDate h (Nat.le_trans (by decide) hyear)
  · intro value value' t t' hparse hparse'
    rcases TimeFields.parseAmzTimestamp_eq_ok.mp hparse with ⟨fields, h, rfl, rfl⟩
    rcases TimeFields.parseAmzTimestamp_eq_ok.mp hparse' with ⟨fields', h', rfl, rfl⟩
    exact h.text_lt_iff h'

theorem calendar_conversions_agree_leap_day :
    civilFromDays (daysFromCivil 2024 2 29) = (2024, 2, 29)
    ∧ daysFromCivil 2024 3 1 = daysFromCivil 2024 2 29 + 1
    ∧ (Protocol.ascii "20240229T000000Z" < Protocol.ascii "20240301T000000Z"
      ↔ (1709164800 : Int) < 1709251200)
    ∧ parseAmzTimestamp (amzForm (encodeUtf8 (iso8601 1709164800123))) = .ok 1709164800 := by
  have hdate : ValidDate 2024 2 29 := ⟨by decide, by decide, by decide, by decide⟩
  rcases calendar_conversions_agree with ⟨hinverse, _, hnext, horder, hiso⟩
  have hleap : parseAmzTimestamp (Protocol.ascii "20240229T000000Z") = .ok 1709164800 := by
    decide +kernel
  have hmarch : parseAmzTimestamp (Protocol.ascii "20240301T000000Z") = .ok 1709251200 := by
    decide +kernel
  exact ⟨hinverse 2024 2 29 (by decide) hdate, hnext 2024 2 29 (by decide) hdate,
    horder _ _ _ _ hleap hmarch, hiso 1709164800123 (by decide) (by decide +kernel)⟩

end Pgs3.S3
