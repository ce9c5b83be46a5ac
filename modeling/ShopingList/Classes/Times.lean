import ShopingList.Classes.MergeResult

/-!
# Times that are written and read

An instant is a number of seconds since the start of year 1; its `WallClock` is the moment
whose fields the formatter prints. `instantOf_dateAndTimeNow` says what the merge reads of
the time that is written at a moment: the month has taken the place of the minute.
-/

namespace ShopingList

open CompareList

namespace Moment

/-! ## The calendar -/

/-- The days before the year. -/
def yearStart (year : Nat) : Nat :=
  let y := year - 1
  365 * y + y / 4 - y / 100 + y / 400

/-- The days before the day. -/
def dayNumber (m : Moment) : Nat := yearStart m.year + daysBefore m.year m.month + (m.day - 1)

theorem minutes_eq (m : Moment) : m.minutes = (m.dayNumber * 24 + m.hour) * 60 + m.minute := rfl

theorem daysBefore_succ (year : Nat) {month : Nat} (h : 1 ≤ month) :
    daysBefore year (month + 1) = daysBefore year month + daysInMonth year month := by
  obtain ⟨k, rfl⟩ : ∃ k, month = k + 1 := ⟨month - 1, by omega⟩
  simp [daysBefore, List.range_succ]

theorem daysInMonth_pos (year month : Nat) : 1 ≤ daysInMonth year month := by
  unfold daysInMonth
  split
  · split <;> omega
  · split <;> omega

theorem daysBefore_year (year : Nat) : daysBefore year 13 = if isLeap year then 366 else 365 := by
  cases h : isLeap year <;> simp [daysBefore, daysInMonth, List.range_succ, h]

theorem yearStart_succ {year : Nat} (h : 1 ≤ year) :
    yearStart (year + 1) = yearStart year + daysBefore year 13 := by
  obtain ⟨y, rfl⟩ : ∃ y, year = y + 1 := ⟨year - 1, by omega⟩
  have h4 : (y + 1) / 4 = y / 4 + if (y + 1) % 4 = 0 then 1 else 0 := by split <;> omega
  have h100 : (y + 1) / 100 = y / 100 + if (y + 1) % 100 = 0 then 1 else 0 := by split <;> omega
  have h400 : (y + 1) / 400 = y / 400 + if (y + 1) % 400 = 0 then 1 else 0 := by split <;> omega
  have hleap : isLeap (y + 1) = true ↔ (y + 1) % 4 = 0 ∧ (y + 1) % 100 ≠ 0 ∨ (y + 1) % 400 = 0 := by
    simp [isLeap]
  have hle : y / 100 ≤ y := Nat.div_le_self y 100
  have hle' : (y + 1) / 100 ≤ y + 1 := Nat.div_le_self _ 100
  rw [daysBefore_year]
  simp only [yearStart, Nat.add_sub_cancel, h4, h400, hleap]
  by_cases h1 : (y + 1) % 100 = 0
  · rw [h100, if_pos h1] at *
    rw [if_pos (by omega : (y + 1) % 4 = 0)]
    by_cases h2 : (y + 1) % 400 = 0 <;> simp [h1, h2] <;> omega
  · have h2 : (y + 1) % 400 ≠ 0 := by omega
    rw [h100, if_neg h1] at *
    by_cases h3 : (y + 1) % 4 = 0 <;> simp [h1, h2, h3] <;> omega

theorem daysBefore_mono (year : Nat) {i j : Nat} (hi : 1 ≤ i) (h : i ≤ j) : daysBefore year i ≤ daysBefore year j := by
  induction h with
  | refl => exact Nat.le_refl _
  | step hj ih =>
    rw [daysBefore_succ year (Nat.le_trans hi hj)]
    omega

theorem yearStart_mono {i j : Nat} (hi : 1 ≤ i) (h : i ≤ j) : yearStart i ≤ yearStart j := by
  induction h with
  | refl => exact Nat.le_refl _
  | step hj ih =>
    rw [yearStart_succ (Nat.le_trans hi hj)]
    omega

/-- The days of a year lie between the starts of two years. -/
theorem Valid.dayNumber_lt {m : Moment} (h : m.Valid) : m.dayNumber < yearStart (m.year + 1) := by
  obtain ⟨hyear, hmonth, hmonth', hday, hday', -⟩ := h
  have hsucc := daysBefore_succ m.year hmonth
  have hle := daysBefore_mono m.year (i := m.month + 1) (j := 13) (by omega) (by omega)
  rw [yearStart_succ hyear]
  unfold dayNumber
  omega

/-- **A day has one date.** -/
theorem Valid.date_inj {m m' : Moment} (h : m.Valid) (h' : m'.Valid) (hd : m.dayNumber = m'.dayNumber) :
    m.year = m'.year ∧ m.month = m'.month := by
  have hlt := h.dayNumber_lt
  have hlt' := h'.dayNumber_lt
  obtain ⟨hyear, hmonth, hmonth12, hday, hdays, -⟩ := h
  obtain ⟨hyear', hmonth', hmonth12', hday', hdays', -⟩ := h'
  have hsame : m.year = m'.year := by
    rcases Nat.lt_trichotomy m.year m'.year with hy | hy | hy
    · have := yearStart_mono (i := m.year + 1) (by omega) hy
      unfold dayNumber at hd hlt hlt'
      omega
    · exact hy
    · have := yearStart_mono (i := m'.year + 1) (by omega) hy
      unfold dayNumber at hd hlt hlt'
      omega
  refine ⟨hsame, ?_⟩
  unfold dayNumber at hd
  rw [hsame] at hd hdays
  have hsucc := daysBefore_succ m'.year hmonth
  have hsucc' := daysBefore_succ m'.year hmonth'
  rcases Nat.lt_trichotomy m.month m'.month with hm | hm | hm
  · have := daysBefore_mono m'.year (i := m.month + 1) (by omega) hm
    omega
  · exact hm
  · have := daysBefore_mono m'.year (i := m'.month + 1) (by omega) hm
    omega

/-- Every day has a date. -/
theorem exists_date (n : Nat) : ∃ year month day, 1 ≤ year ∧ 1 ≤ month ∧ month ≤ 12 ∧ 1 ≤ day ∧
    day ≤ daysInMonth year month ∧ yearStart year + daysBefore year month + (day - 1) = n := by
  induction n with
  | zero => exact ⟨1, 1, 1, by decide⟩
  | succ n ih =>
    obtain ⟨year, month, day, hyear, hmonth, hmonth', hday, hday', hn⟩ := ih
    by_cases hlast : day < daysInMonth year month
    · exact ⟨year, month, day + 1, hyear, hmonth, hmonth', by omega, hlast, by omega⟩
    have hsucc := daysBefore_succ year hmonth
    by_cases hdec : month < 12
    · exact ⟨year, month + 1, 1, hyear, by omega, by omega, Nat.le_refl 1, daysInMonth_pos _ _, by omega⟩
    · obtain rfl : month = 12 := by omega
      refine ⟨year + 1, 1, 1, by omega, Nat.le_refl 1, by omega, Nat.le_refl 1, daysInMonth_pos _ _, ?_⟩
      have hstart := yearStart_succ hyear
      simp only [Nat.reduceAdd] at hsucc
      have hnone : daysBefore (year + 1) 1 = 0 := rfl
      omega

end Moment

/-- The fields of the wall clock at the instant `t`. -/
structure WallClock (t : Nat) (m : Moment) : Prop where
  valid : m.Valid
  minutes : m.minutes = t / 60

/-- There is one at every instant. -/
theorem exists_wallClock (t : Nat) : ∃ m, WallClock t m := by
  obtain ⟨year, month, day, hyear, hmonth, hmonth', hday, hday', hn⟩ := Moment.exists_date (t / 60 / 1440)
  refine ⟨⟨year, month, day, t / 60 / 60 % 24, t / 60 % 60⟩, ⟨hyear, hmonth, hmonth', hday, hday', ?_, ?_⟩, ?_⟩
  · exact Nat.mod_lt _ (by omega)
  · exact Nat.mod_lt _ (by omega)
  · have hd : Moment.dayNumber ⟨year, month, day, t / 60 / 60 % 24, t / 60 % 60⟩ = t / 60 / 1440 := hn
    rw [Moment.minutes_eq, hd]
    simp only
    omega

/-! ## Decimal digits -/

theorem isDigit_digit {d : Nat} (h : d < 10) : (Char.ofNat ('0'.toNat + d)).isDigit = true ∧
    (Char.ofNat ('0'.toNat + d)).toNat - '0'.toNat = d := by
  have hall : ∀ d < 10, (Char.ofNat ('0'.toNat + d)).isDigit = true ∧
    (Char.ofNat ('0'.toNat + d)).toNat - '0'.toNat = d := by decide
  exact hall d h

theorem length_digits (width n : Nat) : (digits width n).length = width := by
  induction width generalizing n with
  | zero => rfl
  | succ width ih => rw [digits, List.length_append, ih, List.length_singleton]

/-- Enough digits are read as the number. -/
theorem number_digits {width n : Nat} (h : n < 10 ^ width) : number (digits width n) = some n := by
  induction width generalizing n with
  | zero =>
    obtain rfl : n = 0 := by simpa using h
    rfl
  | succ width ih =>
    have hlt : n / 10 < 10 ^ width := by
      rw [Nat.pow_succ] at h
      omega
    obtain ⟨hdigit, hvalue⟩ := isDigit_digit (Nat.mod_lt n (by omega : 0 < 10))
    have hhead := ih hlt
    rw [number] at hhead ⊢
    rw [digits, List.foldl_append, hhead]
    simp only [List.foldl_cons, List.foldl_nil, Option.bind_some, hdigit, if_true, hvalue]
    rw [Nat.div_add_mod]

theorem number_yearDigits (year : Nat) : number (yearDigits year) = some year := by
  have hlen : year < 10 ^ (Nat.toDigits 10 year).length :=
    (Nat.length_toDigits_le_iff (by omega) Nat.length_toDigits_pos).1 (Nat.le_refl _)
  exact number_digits (Nat.lt_of_lt_of_le hlen (Nat.pow_le_pow_right (by omega) (Nat.le_max_right _ _)))

/-- The last four digits of the year, and those before. -/
theorem yearDigits_eq (year : Nat) : ∃ years y1 y2 y3 y4, yearDigits year = years ++ [y1, y2, y3, y4] := by
  have hlen : 4 ≤ (yearDigits year).length := by
    rw [yearDigits, length_digits]
    exact Nat.le_max_left _ _
  have hdrop : ((yearDigits year).drop ((yearDigits year).length - 4)).length = 4 := by
    rw [List.length_drop]
    omega
  obtain ⟨y1, y2, y3, y4, hlast⟩ := List.length_eq_four.1 hdrop
  refine ⟨(yearDigits year).take ((yearDigits year).length - 4), y1, y2, y3, y4, ?_⟩
  rw [← hlast, List.take_append_drop]

/-! ## The time that is read -/

/-- What the formatter reads of a time that is written at `now`: the minute is the number of the month. -/
theorem dateFromString_dateAndTimeNow (addr : Nat) {now : Moment} (h : now.Valid) :
    dateFromString addr (some (DateAndTime.dateAndTimeNow now)) =
      some ⟨addr, { now with minute := now.month }.minutes⟩ := by
  obtain ⟨hyear, hmonth, hmonth', hday, hday', hhour, hminute⟩ := h
  have hread : Moment.Valid { now with minute := now.month } :=
    ⟨hyear, hmonth, hmonth', hday, hday', hhour, by simp only; omega⟩
  have hdays : now.day ≤ 31 := by
    have : Moment.daysInMonth now.year now.month ≤ 31 := by
      unfold Moment.daysInMonth
      split
      · split <;> omega
      · split <;> omega
    omega
  have htwo : ∀ n < 100, number (digits 2 n) = some n := fun n hn => number_digits hn
  obtain ⟨years, y1, y2, y3, y4, hy⟩ := yearDigits_eq now.year
  have hnumber := number_yearDigits now.year
  rw [hy] at hnumber
  have hd := htwo now.day (by omega)
  have hmo := htwo now.month (by omega)
  have hh := htwo now.hour (by omega)
  simp only [digits, List.nil_append, List.cons_append] at hd hmo hh
  rw [dateFromString, DateAndTime.dateAndTimeNow, Option.map_some, String.toList_ofList, hy]
  simp only [digits, List.nil_append, List.cons_append, List.append_assoc, List.reverse_append,
    List.reverse_cons, List.reverse_nil, List.reverse_reverse, hnumber, hd, hmo, hh, Option.bind_eq_bind, Option.bind_some, if_pos hread]
  rfl

theorem instantOf_dateAndTimeNow {now : Moment} (h : now.Valid) :
    instantOf (some (DateAndTime.dateAndTimeNow now)) = some (now.minutes / 60 * 60 + now.month) := by
  have hminute : now.minute < 60 := h.2.2.2.2.2.2
  have hday : Moment.dayNumber { now with minute := now.month } = now.dayNumber := rfl
  rw [instantOf, dateFromString_dateAndTimeNow 0 h, Option.map_some, Moment.minutes_eq, Moment.minutes_eq, hday]
  simp only [Option.some.injEq]
  omega

/-- The time written at the instant is read as the instant, without its seconds. -/
def Survives (t : Nat) (now : Moment) : Prop :=
  instantOf (some (DateAndTime.dateAndTimeNow now)) = some (t / 60)

/-- The time written at the one moment is read as an earlier instant than that of the other. -/
def ReadsBefore (now now' : Moment) : Prop :=
  ∃ i ∈ instantOf (some (DateAndTime.dateAndTimeNow now)),
    ∃ j ∈ instantOf (some (DateAndTime.dateAndTimeNow now')), i < j

instance (t : Nat) (now : Moment) : Decidable (Survives t now) := inferInstanceAs (Decidable (_ = _))

instance (now now' : Moment) : Decidable (ReadsBefore now now') :=
  inferInstanceAs (Decidable (∃ i ∈ instantOf _, ∃ j ∈ instantOf _, i < j))

/-- **When a time survives its format**: when the minute is the number of the month. Of two edits in
different minutes the earlier one is read as earlier if and only if they are in different hours. -/
theorem survives_iff {t : Nat} {now : Moment} (h : WallClock t now) : (Survives t now ↔ now.minute = now.month) ∧
    ∀ t' now', WallClock t' now' → t / 60 < t' / 60 → (ReadsBefore now now' ↔ t / 3600 < t' / 3600) := by
  have hread := instantOf_dateAndTimeNow h.valid
  refine ⟨?_, fun t' now' h' hlt => ?_⟩
  · have hminute : now.minute < 60 := h.valid.2.2.2.2.2.2
    have heq := now.minutes_eq
    rw [Survives, hread, ← h.minutes, Option.some.injEq]
    omega
  · have hread' := instantOf_dateAndTimeNow h'.valid
    have hmonth := h.valid.2.1
    have hmonth12 := h.valid.2.2.1
    have hmonth' := h'.valid.2.1
    have hmonth12' := h'.valid.2.2.1
    -- in one hour the dates are the same, and so are the times that are read
    have hsame : now.minutes / 60 = now'.minutes / 60 → now.month = now'.month := by
      intro hhour
      have heq := now.minutes_eq
      have heq' := now'.minutes_eq
      have hlt24 := h.valid.2.2.2.2.2.1
      have hlt24' := h'.valid.2.2.2.2.2.1
      have hlt60 := h.valid.2.2.2.2.2.2
      have hlt60' := h'.valid.2.2.2.2.2.2
      exact (h.valid.date_inj h'.valid (by omega)).2
    have hbefore : ReadsBefore now now' ↔
        now.minutes / 60 * 60 + now.month < now'.minutes / 60 * 60 + now'.month := by
      rw [ReadsBefore, hread, hread']
      simp
    have hminutes := h.minutes
    have hminutes' := h'.minutes
    rw [hbefore]
    by_cases hhour : now.minutes / 60 = now'.minutes / 60
    · have := hsame hhour
      omega
    · omega

/-- Noon on the first of February 2020, and half a minute later. -/
theorem survives_iff_noon : (Survives 63716155230 ⟨2020, 2, 1, 12, 0⟩ ↔ 0 = 2) ∧
    ∀ t' now', WallClock t' now' → 63716155230 / 60 < t' / 60 →
      (ReadsBefore ⟨2020, 2, 1, 12, 0⟩ now' ↔ 63716155230 / 3600 < t' / 3600) :=
  survives_iff ⟨by decide, by decide⟩

theorem not_survives : ¬ ∀ (t : Nat) (now : Moment), WallClock t now → Survives t now ∧
    ∀ t' now', WallClock t' now' → t / 60 < t' / 60 → ReadsBefore now now' := by
  intro h
  have hnoon := (h 63716155230 ⟨2020, 2, 1, 12, 0⟩ ⟨by decide, by decide⟩).1
  revert hnoon
  decide

end ShopingList
