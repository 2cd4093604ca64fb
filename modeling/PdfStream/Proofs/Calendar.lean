import Mathlib.Algebra.GroupWithZero.Nat
import Mathlib.Data.List.GetD
import Mathlib.Logic.Function.Iterate
import Mathlib.Order.Monotone.Basic
import PdfStream.Calendar

/-!
The calendar as its clock goes: every date and time has a next second, which carries over into
minutes, hours, days, months and years. The date that is computed for a number of seconds is the one
that the clock has come to after so many of them.
-/
namespace PdfStream
namespace Calendar

theorem daysBefore_strictMono : StrictMono daysBefore := by
  apply strictMono_nat_of_lt_succ
  intro year
  rw [daysBefore_succ]
  split <;> omega

theorem sum_monthLengths (year : Nat) :
    (monthLengths year).sum = if IsLeap year then 366 else 365 := by
  unfold monthLengths
  split <;> rfl

theorem daysBefore_succ_eq_sum (year : Nat) :
    daysBefore (year + 1) = daysBefore year + (monthLengths year).sum := by
  rw [daysBefore_succ, sum_monthLengths]

/-- The start of a year is nowhere more than two days from what the mean length of a year gives. -/
theorem daysBefore_near_mean (year : Nat) :
    146097 * year ≤ 400 * daysBefore year + 396 ∧ 400 * daysBefore year ≤ 146097 * year + 699 := by
  unfold daysBefore
  omega

theorem yearOf_spec (day : Nat) :
    daysBefore (yearOf day) ≤ day ∧ day < daysBefore (yearOf day + 1) := by
  obtain ⟨low, hlow⟩ : ∃ low, low = (day - 2) * 400 / 146097 := ⟨_, rfl⟩
  have hyear : yearOf day = if daysBefore (low + 1) ≤ day then low + 1 else low := by
    rw [hlow]
    rfl
  have hstart := (daysBefore_near_mean low).2
  have hend := (daysBefore_near_mean (low + 1 + 1)).1
  rw [hyear]
  split_ifs with h
  · exact ⟨h, by omega⟩
  · refine ⟨?_, by omega⟩
    rcases Nat.eq_zero_or_pos low with rfl | hpos
    · exact Nat.zero_le day
    · omega

theorem yearOf_eq {day year : Nat} (hstart : daysBefore year ≤ day)
    (hend : day < daysBefore (year + 1)) : yearOf day = year := by
  obtain ⟨hstart', hend'⟩ := yearOf_spec day
  have hle : yearOf day < year + 1 :=
    daysBefore_strictMono.lt_iff_lt.1 (Nat.lt_of_le_of_lt hstart' hend)
  have hge : year < yearOf day + 1 :=
    daysBefore_strictMono.lt_iff_lt.1 (Nat.lt_of_le_of_lt hstart hend')
  omega

/-- A day inside the month after `month` whole ones. -/
theorem monthOf_take {lengths : List Nat} {month day : Nat} (h : day < lengths.getD month 0) :
    monthOf lengths ((lengths.take month).sum + day) = (month, day) := by
  induction lengths generalizing month with
  | nil => exact absurd h (Nat.not_lt_zero day)
  | cons length lengths ih =>
    cases month with
    | zero =>
      have hday : day < length := h
      rw [List.take_zero, List.sum_nil, Nat.zero_add, monthOf, if_pos hday]
    | succ month =>
      have hlater : ¬length + (lengths.take month).sum + day < length := by omega
      have hrest : length + (lengths.take month).sum + day - length =
          (lengths.take month).sum + day := by omega
      rw [List.take_succ_cons, List.sum_cons, monthOf, if_neg hlater, hrest, ih h]

theorem exists_month {lengths : List Nat} {day : Nat} (h : day < lengths.sum) :
    ∃ month rest, rest < lengths.getD month 0 ∧ day = (lengths.take month).sum + rest := by
  induction lengths generalizing day with
  | nil => exact absurd h (Nat.not_lt_zero day)
  | cons length lengths ih =>
    rw [List.sum_cons] at h
    rcases Nat.lt_or_ge day length with hfirst | hlater
    · exact ⟨0, day, hfirst, (Nat.zero_add day).symm⟩
    · have hless : day - length < lengths.sum := by omega
      obtain ⟨month, rest, hrest, hday⟩ := ih hless
      refine ⟨month + 1, rest, hrest, ?_⟩
      rw [List.take_succ_cons, List.sum_cons]
      omega

theorem sum_take_succ (lengths : List Nat) (month : Nat) :
    (lengths.take (month + 1)).sum = (lengths.take month).sum + lengths.getD month 0 := by
  rw [List.take_add_one, List.sum_append, List.getD_eq_getElem?_getD]
  cases lengths[month]? <;> rfl

theorem sum_take_le (lengths : List Nat) (month : Nat) :
    (lengths.take month).sum ≤ lengths.sum := by
  conv_rhs => rw [← List.take_append_drop month lengths, List.sum_append]
  exact Nat.le_add_right _ _

end Calendar

open Calendar

namespace CivilTime
variable {c : CivilTime}

/-- A date of the calendar from 1970 on, and a time of day. -/
structure OnCalendar (c : CivilTime) : Prop where
  year_ge : 1970 ≤ c.year
  month_pos : 1 ≤ c.month
  day_pos : 1 ≤ c.day
  day_le : c.day ≤ (monthLengths c.year).getD (c.month - 1) 0
  hour_lt : c.hour < 24
  minute_lt : c.minute < 60
  second_lt : c.second < 60

theorem OnCalendar.isValid (h : c.OnCalendar) (hyear : c.year ≤ 9999) : c.IsValid :=
  ⟨h.year_ge, hyear, h.month_pos, h.day_pos, h.day_le, h.hour_lt, h.minute_lt, h.second_lt⟩

theorem OnCalendar.month_le (h : c.OnCalendar) : c.month ≤ 12 := by
  by_contra hmonth
  have hnone : (monthLengths c.year).getD (c.month - 1) 0 = 0 :=
    List.getD_eq_default _ _ (show 12 ≤ c.month - 1 by omega)
  have hpos := h.day_pos
  have hle := h.day_le
  omega

theorem OnCalendar.day_le_31 (h : c.OnCalendar) : c.day ≤ 31 := by
  have hlong : ∀ length ∈ monthLengths c.year, length ≤ 31 := by
    unfold monthLengths
    split <;> decide
  have hmonth : c.month - 1 < (monthLengths c.year).length := by
    have := h.month_pos
    have := h.month_le
    exact (by omega : c.month - 1 < 12)
  have hle := h.day_le
  rw [List.getD_eq_getElem _ _ hmonth] at hle
  exact Nat.le_trans hle (hlong _ (List.getElem_mem hmonth))

/-- Days from the start of the year 0. -/
def dayNumber (c : CivilTime) : Nat :=
  daysBefore c.year + ((monthLengths c.year).take (c.month - 1)).sum + (c.day - 1)

theorem toSeconds_eq (c : CivilTime) : c.toSeconds =
    (c.dayNumber - epochDay) * 86400 + c.hour * 3600 + c.minute * 60 + c.second := by
  rw [toSeconds, dayNumber, List.sum_eq_foldl]

theorem OnCalendar.epochDay_le (h : c.OnCalendar) : epochDay ≤ c.dayNumber := by
  have hyear : epochDay ≤ daysBefore c.year := daysBefore_strictMono.monotone h.year_ge
  rw [dayNumber]
  omega

theorem OnCalendar.yearOf_dayNumber (h : c.OnCalendar) : yearOf c.dayNumber = c.year := by
  have hpos := h.day_pos
  have hle := h.day_le
  have hmonths := sum_take_le (monthLengths c.year) (c.month - 1 + 1)
  rw [sum_take_succ] at hmonths
  apply yearOf_eq
  · rw [dayNumber]
    omega
  · rw [dayNumber, daysBefore_succ_eq_sum]
    omega

theorem OnCalendar.monthOf_dayNumber (h : c.OnCalendar) :
    monthOf (monthLengths (yearOf c.dayNumber)) (c.dayNumber - daysBefore (yearOf c.dayNumber)) =
      (c.month - 1, c.day - 1) := by
  have hpos := h.day_pos
  have hle := h.day_le
  have hrest : c.dayNumber - daysBefore c.year =
      ((monthLengths c.year).take (c.month - 1)).sum + (c.day - 1) := by
    rw [dayNumber]
    omega
  rw [h.yearOf_dayNumber, hrest, monthOf_take (by omega)]

theorem ofSeconds_eq {seconds day months rest : Nat} (hday : epochDay + seconds / 86400 = day)
    (hmonth : monthOf (monthLengths (yearOf day)) (day - daysBefore (yearOf day)) =
      (months, rest)) :
    ofSeconds seconds = ⟨yearOf day, months + 1, rest + 1, seconds / 3600 % 24,
      seconds / 60 % 60, seconds % 60⟩ := by
  subst hday
  simp only [ofSeconds, hmonth]

/-- The seconds of a date give the date back. -/
theorem OnCalendar.ofSeconds_toSeconds (h : c.OnCalendar) : ofSeconds c.toSeconds = c := by
  have hhour := h.hour_lt
  have hminute := h.minute_lt
  have hsecond := h.second_lt
  have hday : epochDay + c.toSeconds / 86400 = c.dayNumber := by
    have hepoch := h.epochDay_le
    rw [toSeconds_eq]
    generalize epochDay = epoch at *
    omega
  have htime : c.toSeconds / 3600 % 24 = c.hour ∧ c.toSeconds / 60 % 60 = c.minute ∧
      c.toSeconds % 60 = c.second := by
    rw [toSeconds_eq]
    generalize c.dayNumber - epochDay = days
    omega
  rw [ofSeconds_eq hday h.monthOf_dayNumber, h.yearOf_dayNumber,
    Nat.sub_add_cancel h.month_pos, Nat.sub_add_cancel h.day_pos, htime.1, htime.2.1, htime.2.2]

/-- Every second has its date. -/
theorem exists_onCalendar (seconds : Nat) :
    ∃ c : CivilTime, c.OnCalendar ∧ c.toSeconds = seconds := by
  obtain ⟨day, hday⟩ : ∃ day, day = epochDay + seconds / 86400 := ⟨_, rfl⟩
  obtain ⟨hstart, hend⟩ := yearOf_spec day
  have hyear : 1970 < yearOf day + 1 := by
    apply daysBefore_strictMono.lt_iff_lt.1
    show epochDay < _
    omega
  rw [daysBefore_succ_eq_sum] at hend
  have hless : day - daysBefore (yearOf day) < (monthLengths (yearOf day)).sum := by omega
  obtain ⟨month, rest, hrest, hsum⟩ := exists_month hless
  refine ⟨⟨yearOf day, month + 1, rest + 1, seconds / 3600 % 24, seconds / 60 % 60, seconds % 60⟩,
    ⟨Nat.le_of_lt_succ hyear, Nat.le_add_left 1 month, Nat.le_add_left 1 rest, hrest, ?_, ?_, ?_⟩,
    ?_⟩
  · exact Nat.mod_lt _ (by decide)
  · exact Nat.mod_lt _ (by decide)
  · exact Nat.mod_lt _ (by decide)
  · simp only [toSeconds_eq, dayNumber, Nat.add_sub_cancel]
    omega

theorem toSeconds_ofSeconds (seconds : Nat) : (ofSeconds seconds).toSeconds = seconds := by
  obtain ⟨c, hc, rfl⟩ := exists_onCalendar seconds
  rw [hc.ofSeconds_toSeconds]

theorem onCalendar_ofSeconds (seconds : Nat) : (ofSeconds seconds).OnCalendar := by
  obtain ⟨c, hc, rfl⟩ := exists_onCalendar seconds
  rwa [hc.ofSeconds_toSeconds]

theorem ofSeconds_injective : Function.Injective ofSeconds :=
  Function.LeftInverse.injective toSeconds_ofSeconds

/-- The same time on the next day. -/
def nextDay (c : CivilTime) : CivilTime :=
  if c.day < (monthLengths c.year).getD (c.month - 1) 0 then { c with day := c.day + 1 }
  else if c.month < 12 then { c with month := c.month + 1, day := 1 }
  else { c with year := c.year + 1, month := 1, day := 1 }

/-- One second later. -/
def next (c : CivilTime) : CivilTime :=
  if c.second < 59 then { c with second := c.second + 1 }
  else if c.minute < 59 then { c with minute := c.minute + 1, second := 0 }
  else if c.hour < 23 then { c with hour := c.hour + 1, minute := 0, second := 0 }
  else { c.nextDay with hour := 0, minute := 0, second := 0 }

/-- What the clock shows so many seconds after the start of 1970. -/
def clock (seconds : Nat) : CivilTime := next^[seconds] ⟨1970, 1, 1, 0, 0, 0⟩

theorem clock_succ (seconds : Nat) : clock (seconds + 1) = (clock seconds).next :=
  Function.iterate_succ_apply' next seconds _

theorem monthLengths_pos (year : Nat) {month : Nat} (h : month < 12) :
    1 ≤ (monthLengths year).getD month 0 := by
  have hall : ∀ length ∈ monthLengths year, 1 ≤ length := by
    unfold monthLengths
    split <;> decide
  have hmonth : month < (monthLengths year).length := h
  rw [List.getD_eq_getElem _ _ hmonth]
  exact hall _ (List.getElem_mem hmonth)

theorem OnCalendar.nextDay (h : c.OnCalendar) : c.nextDay.OnCalendar := by
  unfold CivilTime.nextDay
  split_ifs with hday hmonth
  · exact { h with day_pos := Nat.le_add_left 1 _, day_le := hday }
  · refine { h with month_pos := Nat.le_add_left 1 _, day_pos := Nat.le_refl 1, day_le := ?_ }
    exact monthLengths_pos c.year (show c.month + 1 - 1 < 12 from hmonth)
  · exact { h with
      year_ge := Nat.le_succ_of_le h.year_ge
      month_pos := Nat.le_refl 1
      day_pos := Nat.le_refl 1
      day_le := monthLengths_pos _ (show 1 - 1 < 12 by decide) }

theorem OnCalendar.dayNumber_nextDay (h : c.OnCalendar) :
    c.nextDay.dayNumber = c.dayNumber + 1 := by
  have hpos := h.day_pos
  have hle := h.day_le
  have hmonth_pos := h.month_pos
  have hmonth_le := h.month_le
  unfold CivilTime.nextDay
  split_ifs with hday hmonth
  · simp only [dayNumber]
    omega
  · have hmonths := sum_take_succ (monthLengths c.year) (c.month - 1)
    rw [Nat.sub_add_cancel hmonth_pos] at hmonths
    simp only [dayNumber, Nat.add_sub_cancel, hmonths]
    omega
  · have htwelve : c.month = 12 := by omega
    have hmonths := sum_take_succ (monthLengths c.year) (c.month - 1)
    have hall : (monthLengths c.year).take (c.month - 1 + 1) = monthLengths c.year := by
      rw [htwelve]
      rfl
    rw [hall] at hmonths
    simp only [dayNumber, daysBefore_succ_eq_sum, Nat.sub_self, List.take_zero, List.sum_nil,
      hmonths]
    omega

theorem OnCalendar.next (h : c.OnCalendar) : c.next.OnCalendar := by
  unfold CivilTime.next
  split_ifs with hsecond hminute hhour
  · exact { h with second_lt := Nat.succ_lt_succ hsecond }
  · exact { h with minute_lt := Nat.succ_lt_succ hminute, second_lt := Nat.zero_lt_succ _ }
  · exact { h with
      hour_lt := Nat.succ_lt_succ hhour
      minute_lt := Nat.zero_lt_succ _
      second_lt := Nat.zero_lt_succ _ }
  · exact { h.nextDay with
      hour_lt := Nat.zero_lt_succ _
      minute_lt := Nat.zero_lt_succ _
      second_lt := Nat.zero_lt_succ _ }

theorem OnCalendar.toSeconds_next (h : c.OnCalendar) : c.next.toSeconds = c.toSeconds + 1 := by
  have hhour_lt := h.hour_lt
  have hminute_lt := h.minute_lt
  have hsecond_lt := h.second_lt
  unfold CivilTime.next
  split_ifs with hsecond hminute hhour
  · simp only [toSeconds_eq, dayNumber]
    omega
  · simp only [toSeconds_eq, dayNumber]
    omega
  · simp only [toSeconds_eq, dayNumber]
    omega
  · have hday : dayNumber { c.nextDay with hour := 0, minute := 0, second := 0 } =
        c.dayNumber + 1 := h.dayNumber_nextDay
    have hepoch := h.epochDay_le
    simp only [toSeconds_eq, hday]
    omega

/-- By induction on the seconds: the clock stays on the calendar and counts them. -/
theorem clock_eq_ofSeconds (seconds : Nat) : clock seconds = ofSeconds seconds := by
  induction seconds with
  | zero => decide
  | succ seconds ih =>
    have hc := onCalendar_ofSeconds seconds
    have hnext : (ofSeconds seconds).next.toSeconds = seconds + 1 := by
      rw [hc.toSeconds_next, toSeconds_ofSeconds]
    rw [clock_succ, ih, ← hnext, hc.next.ofSeconds_toSeconds]

theorem clock_injective : Function.Injective clock := by
  intro m n h
  rw [clock_eq_ofSeconds, clock_eq_ofSeconds] at h
  exact ofSeconds_injective h

/-- The clock comes to the end of the year 9999 with the last second. -/
theorem clock_lastSecond : clock Instant.lastSecond = ⟨9999, 12, 31, 23, 59, 59⟩ := by
  rw [clock_eq_ofSeconds]
  decide

theorem year_clock_le {seconds : Nat} (h : seconds ≤ Instant.lastSecond) :
    (clock seconds).year ≤ 9999 := by
  have hc := onCalendar_ofSeconds seconds
  rw [clock_eq_ofSeconds]
  by_contra hyear
  have hstart : daysBefore 10000 ≤ daysBefore (ofSeconds seconds).year :=
    daysBefore_strictMono.monotone (by omega)
  have hday : daysBefore 10000 ≤ (ofSeconds seconds).dayNumber := by
    rw [dayNumber]
    omega
  have hseconds := toSeconds_ofSeconds seconds
  rw [toSeconds_eq] at hseconds
  have hend : (daysBefore 10000 - epochDay) * 86400 = Instant.lastSecond + 1 := by decide
  have hdays : (daysBefore 10000 - epochDay) * 86400 ≤
      ((ofSeconds seconds).dayNumber - epochDay) * 86400 :=
    Nat.mul_le_mul_right _ (Nat.sub_le_sub_right hday _)
  omega

end CivilTime
end PdfStream
