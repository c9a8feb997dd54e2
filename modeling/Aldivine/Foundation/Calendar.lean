import Mathlib.Data.Prod.Lex
import Mathlib.Order.Monotone.Basic

namespace Aldivine.Foundation.Calendar

@[ext]
structure Date where
  year : ℕ
  month : ℕ
  day : ℕ
deriving DecidableEq

/-- A leap day every 4 years, but not every 100, but every 400. -/
def leap (year : ℕ) : Bool := year % 4 == 0 && (year % 100 != 0 || year % 400 == 0)

def monthLength (leapYear : Bool) (month : ℕ) : ℕ :=
  if month = 2 then if leapYear then 29 else 28
  else if month = 4 ∨ month = 6 ∨ month = 9 ∨ month = 11 then 30
  else 31

namespace Date

def next (d : Date) : Date :=
  if d.day < monthLength (leap d.year) d.month then ⟨d.year, d.month, d.day + 1⟩
  else if d.month < 12 then ⟨d.year, d.month + 1, 1⟩
  else ⟨d.year + 1, 1, 1⟩

/-- Year before month before day. -/
def key (d : Date) : ℕ ×ₗ ℕ ×ₗ ℕ := toLex (d.year, toLex (d.month, d.day))

theorem key_lt_next (d : Date) : d.key < d.next.key := by
  rw [next]
  split_ifs
  · exact Prod.Lex.toLex_lt_toLex.mpr
      (.inr ⟨rfl, Prod.Lex.toLex_lt_toLex.mpr (.inr ⟨rfl, Nat.lt_succ_self _⟩)⟩)
  · exact Prod.Lex.toLex_lt_toLex.mpr
      (.inr ⟨rfl, Prod.Lex.toLex_lt_toLex.mpr (.inl (Nat.lt_succ_self _))⟩)
  · exact Prod.Lex.toLex_lt_toLex.mpr (.inl (Nat.lt_succ_self _))

theorem strictMono_key (d : Date) : StrictMono (fun n ↦ (next^[n] d).key) := by
  refine strictMono_nat_of_lt_succ (fun n ↦ ?_)
  rw [Function.iterate_succ_apply']
  exact key_lt_next _

end Date

section March

/-- The days of the year that begins on the first of March, so that a leap day is its last. -/
def marchLength (year : ℕ) : ℕ := if leap (year + 1) then 366 else 365

/-- The days before the first of March, from that of the year 0 on. -/
def marchStart (year : ℕ) : ℕ := 365 * year + year / 4 - year / 100 + year / 400

/-- Month and day of a day counted from the first of March: five months take 153 days. -/
def fromMarch (doy : ℕ) : ℕ × ℕ :=
  let mp := (5 * doy + 2) / 153
  (if mp < 10 then mp + 3 else mp - 9, doy - (153 * mp + 2) / 5 + 1)

def marchDate (year doy : ℕ) : Date :=
  let (month, day) := fromMarch doy
  ⟨if month ≤ 2 then year + 1 else year, month, day⟩

theorem leap_iff (year : ℕ) :
    leap year = true ↔ 4 ∣ year ∧ (¬100 ∣ year ∨ 400 ∣ year) := by
  simp [leap, Nat.dvd_iff_mod_eq_zero]

theorem marchStart_succ (year : ℕ) :
    marchStart (year + 1) = marchStart year + marchLength year := by
  have hle := Nat.div_le_self year 100
  have h100 : 100 ∣ year + 1 → 4 ∣ year + 1 := Nat.dvd_trans (by decide)
  have h400 : 400 ∣ year + 1 → 100 ∣ year + 1 := Nat.dvd_trans (by decide)
  have hleap := leap_iff (year + 1)
  rw [marchStart, marchStart, marchLength, Nat.succ_div, Nat.succ_div, Nat.succ_div]
  generalize year / 4 = fours, year / 100 = centuries, year / 400 = eras at *
  by_cases hfour : 4 ∣ year + 1
  · by_cases hcentury : 100 ∣ year + 1
    · by_cases hera : 400 ∣ year + 1
      · have hyes : leap (year + 1) = true := hleap.mpr ⟨hfour, .inr hera⟩
        rw [if_pos hfour, if_pos hcentury, if_pos hera, if_pos hyes]
        omega
      · have hno : ¬leap (year + 1) = true :=
          fun h ↦ (hleap.mp h).2.elim (· hcentury) hera
        rw [if_pos hfour, if_pos hcentury, if_neg hera, if_neg hno]
        omega
    · have hyes : leap (year + 1) = true := hleap.mpr ⟨hfour, .inl hcentury⟩
      rw [if_pos hfour, if_neg hcentury, if_neg (fun h ↦ hcentury (h400 h)), if_pos hyes]
      omega
  · have hno : ¬leap (year + 1) = true := fun h ↦ hfour (hleap.mp h).1
    have hcentury : ¬100 ∣ year + 1 := fun h ↦ hfour (h100 h)
    rw [if_neg hfour, if_neg hcentury, if_neg (fun h ↦ hcentury (h400 h)), if_neg hno]
    omega

/-- One day on inside such a year; `l` is whether the year of the day is a leap year. -/
theorem next_fromMarch : ∀ doy < 365, ∀ l : Bool, (doy = 364 → l = true) →
    (fromMarch (doy + 1) =
        if (fromMarch doy).2 < monthLength l (fromMarch doy).1 then
          ((fromMarch doy).1, (fromMarch doy).2 + 1)
        else if (fromMarch doy).1 < 12 then ((fromMarch doy).1 + 1, 1)
        else (1, 1)) ∧
      ((fromMarch doy).1 = 2 → (fromMarch doy).2 < monthLength l (fromMarch doy).1) := by
  decide +kernel

variable {z year doy : ℕ}

theorem le_year_marchDate (year doy : ℕ) : year ≤ (marchDate year doy).year := by
  rw [marchDate]
  dsimp only
  split_ifs <;> omega

theorem marchLength_le (year : ℕ) : marchLength year ≤ 366 := by
  rw [marchLength]
  split_ifs <;> decide

theorem next_marchDate (h : doy + 1 < marchLength year) :
    (marchDate year doy).next = marchDate year (doy + 1) := by
  have hle := marchLength_le year
  have hleap : doy = 364 → leap (marchDate year doy).year = true := by
    rintro rfl
    have hyear : (marchDate year 364).year = year + 1 := rfl
    rw [hyear]
    by_contra hno
    rw [marchLength, if_neg hno] at h
    omega
  obtain ⟨hnext, hfebruary⟩ := next_fromMarch doy (by omega) _ hleap
  by_cases hinside : (fromMarch doy).2 <
      monthLength (leap (marchDate year doy).year) (fromMarch doy).1
  · rw [if_pos hinside] at hnext
    rw [Date.next]
    refine (if_pos hinside).trans ?_
    rw [marchDate, marchDate, hnext]
  · rw [if_neg hinside] at hnext
    rw [Date.next]
    refine (if_neg hinside).trans ?_
    have hmonth : (fromMarch doy).1 ≠ 2 := fun h ↦ hinside (hfebruary h)
    by_cases hlast : (fromMarch doy).1 < 12
    · rw [if_pos hlast] at hnext
      refine (if_pos hlast).trans ?_
      rw [marchDate, marchDate, hnext]
      ext
      · dsimp only
        split_ifs <;> omega
      · rfl
      · rfl
    · rw [if_neg hlast] at hnext
      refine (if_neg hlast).trans ?_
      have hyear : ¬(fromMarch doy).1 ≤ 2 := by omega
      rw [marchDate, marchDate, hnext]
      ext
      · dsimp only
        rw [if_neg hyear, if_pos (by decide)]
      · rfl
      · rfl

theorem next_marchDate_last (h : doy + 1 = marchLength year) :
    (marchDate year doy).next = marchDate (year + 1) 0 := by
  rw [marchLength] at h
  by_cases hleap : leap (year + 1) = true
  · rw [if_pos hleap] at h
    obtain rfl : doy = 365 := by omega
    have hdate : marchDate year 365 = ⟨year + 1, 2, 29⟩ := rfl
    rw [hdate, Date.next, hleap]
    rfl
  · rw [if_neg hleap] at h
    obtain rfl : doy = 364 := by omega
    have hdate : marchDate year 364 = ⟨year + 1, 2, 28⟩ := rfl
    rw [hdate, Date.next, Bool.eq_false_of_not_eq_true hleap]
    rfl

/-- The day `z` from the first of March of the year 0 on is day `doy` of this year. -/
structure Falls (z year doy : ℕ) : Prop where
  place : z = marchStart year + doy
  inside : doy < marchLength year

theorem Falls.next (h : Falls z year doy) :
    ∃ year' doy', Falls (z + 1) year' doy' ∧
      marchDate year' doy' = (marchDate year doy).next := by
  have hplace := h.place
  by_cases hinside : doy + 1 < marchLength year
  · exact ⟨year, doy + 1, ⟨by omega, hinside⟩, (next_marchDate hinside).symm⟩
  · have hlast : doy + 1 = marchLength year := by
      have hdoy := h.inside
      omega
    refine ⟨year + 1, 0, ⟨?_, ?_⟩, (next_marchDate_last hlast).symm⟩
    · rw [marchStart_succ]
      omega
    · rw [marchLength]
      split_ifs <;> decide

theorem Falls.iterate (h : Falls z year doy) (n : ℕ) :
    ∃ year' doy', Falls (z + n) year' doy' ∧
      marchDate year' doy' = Date.next^[n] (marchDate year doy) := by
  induction n with
  | zero => exact ⟨year, doy, h, rfl⟩
  | succ n ih =>
    obtain ⟨year', doy', hfalls, hdate⟩ := ih
    obtain ⟨year'', doy'', hfalls', hdate'⟩ := hfalls.next
    refine ⟨year'', doy'', hfalls', ?_⟩
    rw [hdate', hdate, Function.iterate_succ_apply']

end March

section Eras

variable {z year yoe doy : ℕ}

/-- The day of an era of 400 such years on which one of its years begins. -/
def eraStart (yoe : ℕ) : ℕ := 365 * yoe + yoe / 4 - yoe / 100

/-- A day of an era without the leap days before it. -/
def leapless (doe : ℕ) : ℕ := doe - doe / 1460 + doe / 36524 - doe / 146096

theorem leapless_mono {doe doe' : ℕ} (h : doe ≤ doe') : leapless doe ≤ leapless doe' := by
  rw [leapless, leapless]
  omega

theorem leapless_ends : ∀ yoe < 400, 365 * yoe ≤ leapless (eraStart yoe) ∧
    leapless (eraStart yoe + marchLength yoe - 1) < 365 * (yoe + 1) := by
  decide +kernel

theorem leapless_div (hyoe : yoe < 400) (hdoy : doy < marchLength yoe) :
    leapless (eraStart yoe + doy) / 365 = yoe := by
  obtain ⟨hfirst, hlast⟩ := leapless_ends yoe hyoe
  have hle : eraStart yoe + doy ≤ eraStart yoe + marchLength yoe - 1 := by omega
  have hlower := hfirst.trans (leapless_mono (Nat.le_add_right _ doy))
  have hupper := (leapless_mono hle).trans_lt hlast
  exact Nat.div_eq_of_lt_le (by omega) (by omega)

theorem marchLength_mod (year : ℕ) : marchLength (year % 400) = marchLength year := by
  have hleap : leap (year % 400 + 1) = leap (year + 1) := by
    refine Bool.eq_iff_iff.mpr ?_
    rw [leap_iff, leap_iff]
    omega
  rw [marchLength, marchLength, hleap]

theorem marchStart_eq (year : ℕ) :
    marchStart year = 146097 * (year / 400) + eraStart (year % 400) := by
  have hyear := Nat.div_add_mod year 400
  have hlt := Nat.mod_lt year (by decide : 400 > 0)
  generalize year / 400 = era, year % 400 = yoe at *
  subst hyear
  rw [marchStart, eraStart]
  omega

theorem eraStart_add_lt (hyoe : yoe < 400) (hdoy : doy < 366) : eraStart yoe + doy < 146097 := by
  rw [eraStart]
  omega

theorem Falls.era (h : Falls z year doy) :
    z / 146097 = year / 400 ∧ z % 146097 = eraStart (year % 400) + doy := by
  have hplace := h.place
  have hbound := eraStart_add_lt (Nat.mod_lt year (by decide : 400 > 0))
    (h.inside.trans_le (marchLength_le year))
  rw [marchStart_eq, Nat.add_assoc] at hplace
  rw [hplace]
  constructor
  · rw [Nat.mul_add_div (by decide), Nat.div_eq_of_lt hbound, Nat.add_zero]
  · rw [Nat.mul_add_mod, Nat.mod_eq_of_lt hbound]

end Eras

end Aldivine.Foundation.Calendar
