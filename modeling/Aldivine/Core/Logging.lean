import Aldivine.Foundation.Calendar
import Mathlib.Algebra.Order.Ring.Int
import Mathlib.Algebra.Order.Ring.Nat

namespace Aldivine.Core.Logging

open Foundation.Calendar

section Conversion

/-- A `u32` result that fits; past the word there is none. -/
def u32 (n : ℕ) : Option ℕ := if n < 2 ^ 32 then some n else none

/-- A `u32` difference; below zero there is none. -/
def sub (a b : ℕ) : Option ℕ := if b ≤ a then some (a - b) else none

def i64 (i : ℤ) : Option ℤ := if -2 ^ 63 ≤ i ∧ i < 2 ^ 63 then some i else none

def asU32 (i : ℤ) : ℕ := (i % 2 ^ 32).toNat

/-- The first half of `days_to_ymd`: the year that begins with March and the day of it. -/
def yearAndDay (days : BitVec 64) : Option (ℤ × ℕ) := do
  let z ← i64 (days.toInt + 719468)
  let era := (← if 0 ≤ z then some z else i64 (z - 146096)).tdiv 146097
  let doe := asU32 (← i64 (z - (← i64 (era * 146097))))
  let yoe := (← sub (← u32 ((← sub doe (doe / 1460)) + doe / 36524)) (doe / 146096)) / 365
  let y ← i64 (yoe + (← i64 (era * 400)))
  let doy ← sub doe (← sub (← u32 ((← u32 (365 * yoe)) + yoe / 4)) (yoe / 100))
  some (y, doy)

/-- The second half: the month and its day, and the year that begins with January. -/
def monthAndDay (y : ℤ) (doy : ℕ) : Option (ℕ × ℕ × ℕ) := do
  let mp := (← u32 ((← u32 (5 * doy)) + 2)) / 153
  let d ← u32 ((← sub doy ((← u32 ((← u32 (153 * mp)) + 2)) / 5)) + 1)
  let m ← if mp < 10 then u32 (mp + 3) else sub mp 9
  let y ← if m ≤ 2 then i64 (y + 1) else some y
  some (asU32 y, m, d)

/-- Year, month and day; `none` where a result does not fit its type. -/
def daysToYmd (days : BitVec 64) : Option (ℕ × ℕ × ℕ) := do
  let (y, doy) ← yearAndDay days
  monthAndDay y doy

end Conversion

section Stepping

def epoch : Date := ⟨1970, 1, 1⟩

def dateAfter (days : ℕ) : Date := Date.next^[days] epoch

def Fits (days : BitVec 64) : Prop := (dateAfter days.toNat).year < 2 ^ 32

def ymd (d : Date) : ℕ × ℕ × ℕ := (d.year, d.month, d.day)

def Before (a b : ℕ × ℕ × ℕ) : Prop :=
  a.1 < b.1 ∨ a.1 = b.1 ∧ (a.2.1 < b.2.1 ∨ a.2.1 = b.2.1 ∧ a.2.2 < b.2.2)

variable {n year doy : ℕ} {days days' : BitVec 64}

theorem some_bind {α β : Type} (a : α) (f : α → Option β) : (some a >>= f) = f a := by
  rw [Option.bind_eq_bind, Option.bind_some]

theorem u32_eq (h : n < 2 ^ 32) : u32 n = some n := if_pos h

theorem sub_eq {a b : ℕ} (h : b ≤ a) : sub a b = some (a - b) := if_pos h

theorem i64_eq (h : n < 2 ^ 63) : i64 n = some (n : ℤ) :=
  if_pos ⟨by omega, by omega⟩

theorem asU32_eq (h : n < 2 ^ 32) : asU32 n = n := by
  rw [asU32]
  omega

theorem falls_epoch : Falls 719468 1969 306 := ⟨by decide, by decide⟩

theorem falls_dateAfter (n : ℕ) :
    ∃ year doy, Falls (719468 + n) year doy ∧ marchDate year doy = dateAfter n :=
  falls_epoch.iterate n

theorem falls_small {z : ℕ} (h : Falls z year doy) (hyear : year < 2 ^ 32) : z < 2 ^ 62 := by
  have hplace := h.place
  have hinside := h.inside.trans_le (marchLength_le year)
  rw [marchStart] at hplace
  omega

theorem yearAndDay_of_falls {z : ℕ} (hz : 719468 + days.toNat = z) (h : Falls z year doy)
    (hyear : year < 2 ^ 32) : yearAndDay days = some ((year : ℤ), doy) := by
  obtain ⟨hera, hdoe⟩ := h.era
  have hdoy : doy < 366 := h.inside.trans_le (marchLength_le year)
  have hsmall := falls_small h hyear
  have hyoe : year % 400 < 400 := Nat.mod_lt _ (by decide)
  have hinside : doy < marchLength (year % 400) := by
    rw [marchLength_mod]
    exact h.inside
  have hdays : days.toInt + 719468 = (z : ℤ) := by
    rw [BitVec.toInt_eq_toNat_of_lt (by omega)]
    omega
  have hdiv : (z : ℤ).tdiv 146097 = ((year / 400 : ℕ) : ℤ) := by
    rw [← hera]
    exact (Int.ofNat_tdiv z 146097).symm
  have hstart := eraStart_add_lt hyoe hdoy
  have hleapless := leapless_div hyoe hinside
  rw [leapless] at hleapless
  rw [eraStart] at *
  generalize hyoeEq : year % 400 = yoe at *
  generalize heraEq : year / 400 = era at *
  generalize hdoeEq : 365 * yoe + yoe / 4 - yoe / 100 + doy = doe at *
  have hnonneg : (0 : ℤ) ≤ (z : ℤ) := Int.natCast_nonneg _
  have heraDays : (era : ℤ) * 146097 = ((era * 146097 : ℕ) : ℤ) := by omega
  have hrest : (z : ℤ) - ((era * 146097 : ℕ) : ℤ) = (doe : ℤ) := by omega
  have heraYears : (era : ℤ) * 400 = ((era * 400 : ℕ) : ℤ) := by omega
  have hyears : (yoe : ℤ) + ((era * 400 : ℕ) : ℤ) = (year : ℤ) := by omega
  have hdayOfYear : doe - (365 * yoe + yoe / 4 - yoe / 100) = doy := by omega
  -- the lines of the source one by one, each with the bound that keeps its result in its type
  rw [yearAndDay, hdays, i64_eq (by omega)]
  simp only [some_bind, if_pos hnonneg, hdiv, heraDays,
    i64_eq (show era * 146097 < 2 ^ 63 by omega), hrest, i64_eq (show doe < 2 ^ 63 by omega),
    asU32_eq (show doe < 2 ^ 32 by omega), sub_eq (Nat.div_le_self doe 1460),
    u32_eq (show doe - doe / 1460 + doe / 36524 < 2 ^ 32 by omega),
    sub_eq (show doe / 146096 ≤ doe - doe / 1460 + doe / 36524 by omega), hleapless, heraYears,
    i64_eq (show era * 400 < 2 ^ 63 by omega), hyears, i64_eq (show year < 2 ^ 63 by omega),
    u32_eq (show 365 * yoe < 2 ^ 32 by omega), u32_eq (show 365 * yoe + yoe / 4 < 2 ^ 32 by omega),
    sub_eq (show yoe / 100 ≤ 365 * yoe + yoe / 4 by omega),
    sub_eq (show 365 * yoe + yoe / 4 - yoe / 100 ≤ doe by omega), hdayOfYear]

theorem monthAndDay_eq (hdoy : doy < 366) (hyear : (marchDate year doy).year < 2 ^ 32) :
    monthAndDay year doy = some (ymd (marchDate year doy)) := by
  have hdate : marchDate year doy =
      let mp := (5 * doy + 2) / 153
      ⟨if (if mp < 10 then mp + 3 else mp - 9) ≤ 2 then year + 1 else year,
        if mp < 10 then mp + 3 else mp - 9, doy - (153 * mp + 2) / 5 + 1⟩ := rfl
  have hmonths : 153 * ((5 * doy + 2) / 153) ≤ 5 * doy + 2 := Nat.mul_div_le _ _
  have hlast : (5 * doy + 2) / 153 ≤ 11 := by omega
  rw [hdate] at hyear ⊢
  rw [monthAndDay, u32_eq (by omega), some_bind, u32_eq (by omega), some_bind]
  generalize (5 * doy + 2) / 153 = mp at *
  dsimp only at hyear ⊢
  rw [u32_eq (by omega), some_bind, u32_eq (by omega), some_bind, sub_eq (by omega), some_bind,
    u32_eq (by omega), some_bind]
  by_cases hmarch : mp < 10
  · have hmonth : ¬mp + 3 ≤ 2 := by omega
    rw [if_pos hmarch, if_neg hmonth] at hyear
    rw [if_pos hmarch, u32_eq (by omega), some_bind, if_neg hmonth, some_bind, asU32_eq hyear,
      if_pos hmarch, if_neg hmonth, ymd]
  · have hmonth : mp - 9 ≤ 2 := by omega
    have hnext : (year : ℤ) + 1 = ((year + 1 : ℕ) : ℤ) := rfl
    rw [if_neg hmarch, if_pos hmonth] at hyear
    rw [if_neg hmarch, sub_eq (by omega), some_bind, if_pos hmonth, hnext, i64_eq (by omega),
      some_bind, asU32_eq hyear, if_neg hmarch, if_pos hmonth, ymd]

/-- Nothing underflows or overflows on the way to the date of a day of a year. -/
theorem daysToYmd_of_falls (h : Falls (719468 + days.toNat) year doy)
    (hyear : (marchDate year doy).year < 2 ^ 32) :
    daysToYmd days = some (ymd (marchDate year doy)) := by
  have hle := le_year_marchDate year doy
  rw [daysToYmd, yearAndDay_of_falls rfl h (hle.trans_lt hyear), some_bind]
  exact monthAndDay_eq (h.inside.trans_le (marchLength_le year)) hyear

theorem daysToYmd_eq (h : Fits days) : daysToYmd days = some (ymd (dateAfter days.toNat)) := by
  obtain ⟨year, doy, hfalls, hdate⟩ := falls_dateAfter days.toNat
  rw [Fits, ← hdate] at h
  rw [daysToYmd_of_falls hfalls h, hdate]

theorem before_ymd {d d' : Date} (h : d.key < d'.key) : Before (ymd d) (ymd d') := by
  rcases Prod.Lex.toLex_lt_toLex.mp h with hyear | ⟨hyear, hrest⟩
  · exact .inl hyear
  · exact .inr ⟨hyear, Prod.Lex.toLex_lt_toLex.mp hrest⟩

theorem not_before_self (a : ℕ × ℕ × ℕ) : ¬Before a a := by
  rw [Before]
  omega

theorem daysToYmd_before (h : Fits days) (h' : Fits days') (hlt : days.toNat < days'.toNat) :
    ∃ date date', daysToYmd days = some date ∧ daysToYmd days' = some date' ∧
      Before date date' :=
  ⟨_, _, daysToYmd_eq h, daysToYmd_eq h', before_ymd (Date.strictMono_key epoch hlt)⟩

theorem daysToYmd_ne (h : Fits days) (h' : Fits days') (hlt : days.toNat < days'.toNat) :
    daysToYmd days ≠ daysToYmd days' := by
  obtain ⟨date, date', hdate, hdate', hbefore⟩ := daysToYmd_before h h' hlt
  intro heq
  rw [hdate, hdate', Option.some_inj] at heq
  exact not_before_self date' (heq ▸ hbefore)

/-- Wherever the year fits, the date is the one reached day by day, and no result on the way leaves
its type. Later days have later dates, and no two days the same one. -/
theorem daysToYmd_stepped (days : BitVec 64) (h : Fits days) :
    daysToYmd days = some (ymd (dateAfter days.toNat)) ∧
    (∀ days', Fits days' → days.toNat < days'.toNat →
      ∃ date date', daysToYmd days = some date ∧ daysToYmd days' = some date' ∧
        Before date date') ∧
    (∀ days', Fits days' → daysToYmd days = daysToYmd days' → days = days') := by
  refine ⟨daysToYmd_eq h, fun _ h' hlt ↦ daysToYmd_before h h' hlt, fun days' h' heq ↦ ?_⟩
  rcases Nat.lt_trichotomy days.toNat days'.toNat with hlt | hsame | hlt
  · exact absurd heq (daysToYmd_ne h h' hlt)
  · exact BitVec.eq_of_toNat_eq hsame
  · exact absurd heq.symm (daysToYmd_ne h' h hlt)

/-- The first leap day that is counted. -/
theorem daysToYmd_leap_day : Fits 789 ∧ daysToYmd 789 = some (1972, 2, 29) := by
  have hdate : dateAfter 789 = ⟨1972, 2, 29⟩ := by decide +kernel
  have hfits : Fits 789 := by
    have hyear : (dateAfter 789).year < 2 ^ 32 := by
      rw [hdate]
      decide
    exact hyear
  refine ⟨hfits, (daysToYmd_stepped 789 hfits).1.trans ?_⟩
  exact congrArg (fun d ↦ some (ymd d)) hdate

end Stepping

end Aldivine.Core.Logging
