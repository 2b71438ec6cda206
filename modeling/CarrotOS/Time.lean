import CarrotOS.Lib.Word
import Mathlib.Algebra.GroupWithZero.Nat

/-!
# Points in time (`core/time.h`)

A time is a count of seconds and a count of microseconds. The clock itself is hardware and
enters the model as a value read by each call. `sys_clock_settime` turns seconds into a date.
-/

namespace CarrotOS

open Word List

structure Timeval where
  /-- Seconds, a 64-bit word. -/
  tvSec : ℕ
  /-- Microseconds, a 32-bit word. -/
  tvMicrosec : ℕ
  deriving DecidableEq, Repr, Inhabited

/-- `_later`: `a` is not earlier than `b`. -/
def laterOrSame (a b : Timeval) : Bool :=
  if b.tvSec < a.tvSec then true
  else if a.tvSec < b.tvSec then false
  else decide (b.tvMicrosec ≤ a.tvMicrosec)

def earlier (a b : Timeval) : Bool :=
  if b.tvSec < a.tvSec then false
  else if a.tvSec < b.tvSec then true
  else decide (a.tvMicrosec < b.tvMicrosec)

def addTime (a b : Timeval) : Timeval :=
  let milisecTotal := u32 (a.tvMicrosec + b.tvMicrosec)
  let tvSec := u64 (a.tvSec + b.tvSec)
  ⟨if milisecTotal / 1000000 = 0 then tvSec else u64 (tvSec + 1), milisecTotal % 1000000⟩

def addTimeUs (a : Timeval) (addUs : ℕ) : Timeval :=
  addTime a ⟨addUs / 1000000, addUs % 1000000⟩

/-- `subtract_time`. The microseconds are subtracted as 32-bit words before the sign is tested,
so the branch that borrows a second is never taken. -/
def subtractTime (a b : Timeval) : Timeval :=
  if earlier a b then ⟨0, 0⟩
  else ⟨a.tvSec - b.tvSec, u32 (a.tvMicrosec + 2 ^ 32 - b.tvMicrosec)⟩

def subtractTimeUs (a : Timeval) (subUs : ℕ) : Timeval :=
  subtractTime a ⟨subUs / 1000000, subUs % 1000000⟩

/-! ## The laws of subtraction -/

/-- The seconds of the sum fit in their word. -/
def SecFits (a b : Timeval) : Prop :=
  a.tvSec + b.tvSec + (a.tvMicrosec + b.tvMicrosec) / 1000000 < 2 ^ 64

/-- What a difference of times is for: added to `b` it gives `a` again, it is zero where `a` is
earlier, and it undoes an addition. -/
def SubtractsBack (a b : Timeval) : Prop :=
  (earlier a b = false →
    (subtractTime a b).tvMicrosec < 1000000 ∧ addTime (subtractTime a b) b = a) ∧
  (earlier a b = true → subtractTime a b = ⟨0, 0⟩) ∧
  (SecFits a b → subtractTime (addTime a b) b = a)

section Laws

variable {s s' u u' : ℕ}

theorem earlier_eq_false : earlier ⟨s, u⟩ ⟨s', u'⟩ = false ↔ s' < s ∨ s = s' ∧ u' ≤ u := by
  dsimp only [earlier]
  split_ifs <;> simp <;> omega

theorem subtractTime_eq (h : earlier ⟨s, u⟩ ⟨s', u'⟩ = false) :
    subtractTime ⟨s, u⟩ ⟨s', u'⟩ = ⟨s - s', u32 (u + 2 ^ 32 - u')⟩ :=
  if_neg (by rw [h]; decide)

theorem addTime_eq (hu : u < 1000000) (hu' : u' < 1000000) (hfit : SecFits ⟨s, u⟩ ⟨s', u'⟩) :
    addTime ⟨s, u⟩ ⟨s', u'⟩ = ⟨s + s' + (u + u') / 1000000, (u + u') % 1000000⟩ := by
  dsimp only [addTime, SecFits] at *
  rw [u32_of_lt (by omega), u64_of_lt (by omega), u64, Timeval.mk.injEq]
  split_ifs <;> omega

/-- Subtraction keeps its laws exactly where no second has to be borrowed or carried. -/
theorem subtractsBack_iff {a b : Timeval} (hs : a.tvSec < 2 ^ 64) (hu : a.tvMicrosec < 1000000)
    (hu' : b.tvMicrosec < 1000000) : SubtractsBack a b ↔
      (earlier a b = false → b.tvMicrosec ≤ a.tvMicrosec) ∧
      (SecFits a b → a.tvMicrosec + b.tvMicrosec < 1000000) := by
  obtain ⟨s, u⟩ := a
  obtain ⟨s', u'⟩ := b
  dsimp only at *
  refine and_congr (imp_congr_right fun hle => ?_)
    ((and_iff_right fun h => if_pos h).trans (imp_congr_right fun hfit => ?_))
  · rw [subtractTime_eq hle]
    rw [earlier_eq_false] at hle
    by_cases h : u' ≤ u
    · have hw : u32 (u + 2 ^ 32 - u') = u - u' := by
        unfold u32
        omega
      have hsum : SecFits ⟨s - s', u - u'⟩ ⟨s', u'⟩ := by
        dsimp only [SecFits]
        omega
      rw [hw, addTime_eq (by omega) hu' hsum, Timeval.mk.injEq]
      dsimp only
      omega
    · refine iff_of_false (fun hback => ?_) h
      have hlt := hback.1
      dsimp only [u32] at hlt
      omega
  · rw [addTime_eq hu hu' hfit, subtractTime_eq (earlier_eq_false.mpr (by omega)), u32,
      Timeval.mk.injEq]
    omega

/-- Half a second before one second is not half a second. -/
theorem borrow_not_taken : ¬SubtractsBack ⟨1, 0⟩ ⟨0, 500000⟩ :=
  fun h => absurd (h.1 rfl).1 (by decide)

theorem subtractsBack_iff_half : SubtractsBack ⟨1, 500000⟩ ⟨0, 250000⟩ :=
  (subtractsBack_iff (by decide) (by decide) (by decide)).mpr ⟨by decide, fun _ => by decide⟩

/-- **A time is reached** when the microseconds added have gone by. -/
theorem laterOrSame_addTimeUs (s t : Fin (2 ^ 63)) (u v : Fin 1000000) (us : Fin (2 ^ 32)) :
    laterOrSame ⟨t, v⟩ (addTimeUs ⟨s, u⟩ us) ↔ (s * 1000000 + u + us : ℕ) ≤ t * 1000000 + v := by
  rw [addTimeUs, addTime_eq u.2]
  · dsimp only [laterOrSame]
    split_ifs <;> simp <;> omega
  · omega
  · dsimp only [SecFits]
    omega

end Laws

/-! ## The calendar -/

def isLeap (year : ℕ) : Bool :=
  year % 4 == 0 && (year % 100 != 0 || year % 400 == 0)

def yearDays (year : ℕ) : ℕ :=
  if isLeap year then 366 else 365

/-- The entry of `days_in_month` for a month counted from one, with the leap day. -/
def monthDays (year month : ℕ) : ℕ :=
  [31, 28, 31, 30, 31, 30, 31, 31, 30, 31, 30, 31].getD (month - 1) 0 +
    if month = 2 ∧ isLeap year then 1 else 0

/-- The loop `for (i = a; i < b; i++) days += f(i)`. -/
def addedDays (f : ℕ → ℕ) (a b : ℕ) : ℕ :=
  ((range' a (b - a)).map f).sum

def daysSinceEpoch (year month day : ℕ) : ℕ :=
  u64 (addedDays yearDays 1970 year + addedDays (monthDays year) 1 month + (day + 2 ^ 64 - 1))

theorem yearDays_pos (year : ℕ) : 0 < yearDays year := by
  unfold yearDays
  split_ifs <;> decide

/-- The loop of `sys_clock_settime` that takes off whole years. -/
def yearLoop (days year : ℕ) : ℕ × ℕ :=
  if days < yearDays year then (days, year)
  else yearLoop (days - yearDays year) (year + 1)
termination_by days
decreasing_by
  have := yearDays_pos year
  omega

/-- The loop that takes off whole months. There is no result behind the table. -/
def monthLoop (year days mon : ℕ) : Option (ℕ × ℕ) :=
  if 12 < mon then none
  else if days < monthDays year mon then some (days, mon)
  else monthLoop year (days - monthDays year mon) (mon + 1)
termination_by 13 - mon

structure DateTime where
  year : ℕ
  mon : ℕ
  day : ℕ
  hour : ℕ
  min : ℕ
  sec : ℕ
  deriving DecidableEq, Repr

/-- The fields that `sys_clock_settime` writes. The year is an `int` in the source, and a whole
number here. -/
def sysClockSettime (sec : ℕ) : Option DateTime :=
  let rem := sec % 86400
  let (days, year) := yearLoop (sec / 86400) 1970
  (monthLoop year days 1).map fun (days, mon) =>
    ⟨year, mon, days + 1, rem / 3600, rem % 3600 / 60, rem % 3600 % 60⟩

/-- A date of the calendar and a time of its day. -/
structure DateTime.Valid (d : DateTime) : Prop where
  mon : 1 ≤ d.mon ∧ d.mon ≤ 12
  day : 1 ≤ d.day ∧ d.day ≤ monthDays d.year d.mon
  time : d.hour < 24 ∧ d.min < 60 ∧ d.sec < 60

section Calendar

variable {year mon days : ℕ}

theorem addedDays_succ (f : ℕ → ℕ) {a b : ℕ} (h : a ≤ b) :
    addedDays f a (b + 1) = addedDays f a b + f b := by
  unfold addedDays
  rw [Nat.succ_sub h, range'_1_concat, map_append, sum_append, map_singleton, sum_singleton,
    Nat.add_sub_cancel' h]

theorem addedDays_year (year : ℕ) : addedDays (monthDays year) 1 13 = yearDays year := by
  unfold yearDays
  cases h : isLeap year <;> simp [addedDays, range', monthDays, h]

/-- What the year loop leaves is a day of the year it stops at. -/
theorem yearLoop_spec (days : ℕ) (h : 1970 ≤ year) :
    (yearLoop days year).1 < yearDays (yearLoop days year).2 ∧
      addedDays yearDays 1970 (yearLoop days year).2 + (yearLoop days year).1 =
        addedDays yearDays 1970 year + days := by
  fun_induction yearLoop days year with
  | case1 days year hlt => exact ⟨hlt, rfl⟩
  | case2 days year hlt ih =>
    obtain ⟨hday, hsum⟩ := ih (by omega)
    refine ⟨hday, ?_⟩
    rw [hsum, addedDays_succ yearDays h]
    omega

/-- The month loop stops in the table at a month that has the day. -/
theorem monthLoop_spec (h1 : 1 ≤ mon) (h13 : mon ≤ 13)
    (hdays : addedDays (monthDays year) 1 mon + days < yearDays year) :
    ∃ days' mon', monthLoop year days mon = some (days', mon') ∧ (1 ≤ mon' ∧ mon' ≤ 12) ∧
      days' < monthDays year mon' ∧ addedDays (monthDays year) 1 mon' + days' =
        addedDays (monthDays year) 1 mon + days := by
  fun_induction monthLoop year days mon with
  | case1 days mon hend =>
    -- behind December the whole year has been taken off
    obtain rfl : mon = 13 := by omega
    rw [addedDays_year] at hdays
    omega
  | case2 days mon hend hlt => exact ⟨days, mon, rfl, ⟨h1, by omega⟩, hlt, rfl⟩
  | case3 days mon hend hlt ih =>
    have hsum : addedDays (monthDays year) 1 (mon + 1) + (days - monthDays year mon) =
        addedDays (monthDays year) 1 mon + days := by
      rw [addedDays_succ _ h1]
      omega
    rw [hsum] at ih
    exact ih (by omega) (by omega) hdays

/-- The fields of a second count are a valid date, and `daysSinceEpoch` leads back to it. -/
theorem sysClockSettime_exact {t : ℕ} (ht : t < 2 ^ 64) : ∃ d, sysClockSettime t = some d ∧
    d.Valid ∧
      daysSinceEpoch d.year d.mon d.day * 86400 + d.hour * 3600 + d.min * 60 + d.sec = t := by
  obtain ⟨hday, hyears⟩ := yearLoop_spec (t / 86400) (Nat.le_refl 1970)
  dsimp only [sysClockSettime]
  generalize yearLoop (t / 86400) 1970 = y at *
  obtain ⟨days, year⟩ := y
  dsimp only at hday hyears
  obtain ⟨days', mon, hmon, h12, hlt, hmonths⟩ := monthLoop_spec (Nat.le_refl 1) (by decide)
    (show addedDays (monthDays year) 1 1 + days <
    yearDays year from (Nat.zero_add days).symm ▸ hday)
  rw [hmon]
  have hyear0 : addedDays yearDays 1970 1970 = 0 := rfl
  have hmon0 : addedDays (monthDays year) 1 1 = 0 := rfl
  have hdays : daysSinceEpoch year mon (days' + 1) = t / 86400 := by
    unfold daysSinceEpoch u64
    omega
  refine ⟨_, rfl, ⟨h12, ⟨Nat.succ_pos _, hlt⟩, ?_⟩, ?_⟩
  all_goals
    dsimp only
    omega

/-- Noon of the leap day of 2000. -/
theorem sysClockSettime_exact_leapDay : ∃ d, sysClockSettime 951825600 = some d ∧ d.Valid ∧
    daysSinceEpoch d.year d.mon d.day * 86400 + d.hour * 3600 + d.min * 60 + d.sec = 951825600 ∧
    d = ⟨2000, 2, 29, 12, 0, 0⟩ := by
  obtain ⟨d, hd, hvalid, hsum⟩ := sysClockSettime_exact (t := 951825600) (by decide)
  have hdate : sysClockSettime 951825600 = some ⟨2000, 2, 29, 12, 0, 0⟩ := by decide +kernel
  exact ⟨d, hd, hvalid, hsum, Option.some.inj (hd.symm.trans hdate)⟩

end Calendar

end CarrotOS
