import PhpRuntime.Date.SerialDay

/-!
# Day numbers and dates are inverse

Both conversions of a calendar agree with its day number up to a constant. They do so as
long as the conversion of a date stays within `int`; the conversion of a day number goes much
further, so that the later days come back as no number.
-/

set_option autoImplicit false

namespace PhpRuntime.Date

open PhpRuntime.Lib
open PhpRuntime.Text (Undefined INT_MAX LONG_MAX intValue toInt toInt_eq)

/-- A calendar and the two conversions for it. -/
structure SdnConversions where
  rule : LeapRule
  toSdn : ℤ → ℤ → ℤ → Except Undefined ℤ
  fromSdn : ℤ → Except Undefined CalendarDate

def gregorianConversions : SdnConversions := ⟨gregorian, gregorianToSdn, sdnToGregorian⟩

def julianConversions : SdnConversions := ⟨julian, julianToSdn, sdnToJulian⟩

namespace SdnConversions

variable (c : SdnConversions)

/-- The date of a day number is valid and has this number, and the next number belongs to the
next day. -/
def SdnExact (sdn : ℤ) : Prop :=
  ∃ d, c.fromSdn sdn = .ok d ∧ ValidSdnDate c.rule d ∧ c.toSdn d.year d.month d.day = .ok sdn ∧
    c.fromSdn (sdn + 1) = .ok (nextSdnDate c.rule d)

def DateExact (d : CalendarDate) : Prop :=
  ∃ sdn, c.toSdn d.year d.month d.day = .ok sdn ∧ c.fromSdn sdn = .ok d

/-- Numbers and dates differ from the day number of the calendar by a constant: the dates up
to a last one, the numbers at least one day further. The conversion of a later date
overflows. -/
structure Specified (offset last : ℤ) : Prop where
  fromSdn_eq : ∀ sdn, 1 ≤ sdn → sdn ≤ last + 1 → ∃ d, c.fromSdn sdn = .ok d ∧
    ValidSdnDate c.rule d ∧ c.rule.dayNumber (astronomical d) = sdn - offset
  toSdn_eq : ∀ d, ValidSdnDate c.rule d → c.rule.dayNumber (astronomical d) + offset ≤ last →
    c.toSdn d.year d.month d.day =
      .ok (max 0 (c.rule.dayNumber (astronomical d) + offset))
  toSdn_overflow : ∀ d, ValidSdnDate c.rule d →
    last < c.rule.dayNumber (astronomical d) + offset →
    c.toSdn d.year d.month d.day = .error .overflow

variable {c}

theorem validSdnDate_eq {r : LeapRule} {d d' : CalendarDate} (h : ValidSdnDate r d)
    (h' : ValidSdnDate r d')
    (heq : r.dayNumber (astronomical d) = r.dayNumber (astronomical d')) : d = d' := by
  have hastro := r.dayNumber_injective h.valid h'.valid heq
  rw [← historical_astronomical h.year_ne, hastro, historical_astronomical h'.year_ne]

theorem Specified.sdnExact_iff {offset last : ℤ} (h : c.Specified offset last) {sdn : ℤ}
    (hpos : 1 ≤ sdn) : c.SdnExact sdn ↔ sdn ≤ last := by
  constructor
  · rintro ⟨d, -, hvalid, hto, -⟩
    by_contra hlast
    rcases le_or_gt (c.rule.dayNumber (astronomical d) + offset) last with hle | hlt
    · rw [h.toSdn_eq d hvalid hle] at hto
      have hsdn : max 0 (c.rule.dayNumber (astronomical d) + offset) = sdn := Except.ok.inj hto
      omega
    · rw [h.toSdn_overflow d hvalid hlt] at hto
      cases hto
  · intro hle
    obtain ⟨d, hfrom, hvalid, hnumber⟩ := h.fromSdn_eq sdn hpos (by omega)
    obtain ⟨d', hfrom', hvalid', hnumber'⟩ := h.fromSdn_eq (sdn + 1) (by omega) (by omega)
    refine ⟨d, hfrom, hvalid, ?_, ?_⟩
    · rw [h.toSdn_eq d hvalid (by omega), hnumber]
      congr 1
      omega
    · have hnext : d' = nextSdnDate c.rule d := by
        apply validSdnDate_eq hvalid' (nextSdnDate_valid hvalid)
        rw [hnumber', nextSdnDate, astronomical_historical,
          c.rule.dayNumber_nextDay hvalid.valid, hnumber]
        omega
      rw [hfrom', hnext]

theorem Specified.dateExact_iff {offset last : ℤ} (h : c.Specified offset last)
    {d : CalendarDate} (hvalid : ValidSdnDate c.rule d)
    (haccepted : c.toSdn d.year d.month d.day ≠ .ok 0) :
    c.DateExact d ↔ c.rule.dayNumber (astronomical d) + offset ≤ last := by
  constructor
  · rintro ⟨sdn, hto, -⟩
    by_contra hlast
    rw [h.toSdn_overflow d hvalid (by omega)] at hto
    cases hto
  · intro hle
    have hto := h.toSdn_eq d hvalid hle
    have hpos : 1 ≤ c.rule.dayNumber (astronomical d) + offset := by
      by_contra hneg
      rw [max_eq_left (by omega)] at hto
      exact haccepted hto
    rw [max_eq_right (by omega)] at hto
    obtain ⟨d', hfrom, hvalid', hnumber⟩ := h.fromSdn_eq _ hpos (by omega)
    have heq : d' = d := validSdnDate_eq hvalid' hvalid (by rw [hnumber]; omega)
    exact ⟨_, hto, heq ▸ hfrom⟩

end SdnConversions

/-! ## The shared parts of the conversions -/

theorem intValue_ok {x : ℤ} (hlow : -INT_MAX - 1 ≤ x) (hhigh : x ≤ INT_MAX) :
    intValue x = .ok x := if_pos ⟨hlow, hhigh⟩

theorem normalDate_eq {year n : ℤ} (hyear : 0 ≤ year) (hyear' : year < INT_MAX) (hn : 1 ≤ n)
    (hn' : n ≤ 366) :
    normalDate year n = .ok (historical (ofMarchDay (year - 4800) n)) := by
  have hk : (n * 5 - 3).tdiv DAYS_PER_5_MONTHS = (n * 5 - 3) / 153 :=
    Int.tdiv_eq_ediv_of_nonneg (by omega)
  have hr : (n * 5 - 3).tmod DAYS_PER_5_MONTHS = (n * 5 - 3) % 153 :=
    Int.tmod_eq_emod_of_nonneg (by omega)
  have hd : ((n * 5 - 3) % 153).tdiv 5 = (n * 5 - 3) % 153 / 5 :=
    Int.tdiv_eq_ediv_of_nonneg (by omega)
  have hint {x : ℤ} (hlow : -4801 ≤ x) (hhigh : x ≤ year + 1) : intValue x = .ok x :=
    intValue_ok (by rw [INT_MAX]; omega) (by omega)
  rw [INT_MAX] at hyear'
  unfold normalDate
  dsimp only
  rw [hk, hr, hd, toInt_eq (by omega) (by rw [INT_MAX]; omega),
    toInt_eq (by omega) (by rw [INT_MAX]; omega)]
  unfold historical ofMarchDay
  dsimp only
  split_ifs with hfirst hneg hneg <;> simp only [ok_bind]
  · rw [hint (by omega) (by omega), ok_bind, if_pos hneg, hint (by omega) (by omega)]
    rfl
  · rw [hint (by omega) (by omega), ok_bind, if_neg hneg]
    rfl
  · rw [hint (by omega) (by omega), ok_bind, hint (by omega) (by omega), ok_bind,
      if_pos (by omega), hint (by omega) (by omega), sub_add_eq_add_sub]
    rfl
  · rw [hint (by omega) (by omega), ok_bind, hint (by omega) (by omega), ok_bind,
      if_neg (by omega), sub_add_eq_add_sub]
    rfl

theorem normalDate_spec (r : LeapRule) {year n : ℤ} (hyear : 0 ≤ year) (hyear' : year < INT_MAX)
    (hn : 1 ≤ n) (hn' : n ≤ 365 + r.leapDay (year - 4800 + 1)) :
    ∃ d, normalDate year n = .ok d ∧ ValidSdnDate r d ∧
      r.dayNumber (astronomical d) = r.daysBeforeMarch (year - 4800) + n := by
  have hleap := r.leapDay_eq_zero_or_one (year - 4800 + 1)
  refine ⟨_, normalDate_eq hyear hyear' hn (by omega), ⟨historical_year_ne _, ?_⟩, ?_⟩
  · rw [astronomical_historical]
    exact r.ofMarchDay_valid hn hn'
  · rw [astronomical_historical]
    exact r.dayNumber_ofMarchDay hn (by omega)

/-- The year that begins on 1 March, counted from 4801 B.C. -/
def countedYear (d : CalendarDate) : ℤ :=
  marchYear (astronomical d).year (astronomical d).month + 4800

theorem internalMonth_eq (m : ℤ) : internalMonth m = marchMonth m := rfl

theorem intValue_or (x : ℤ) : intValue x = .ok x ∨ intValue x = .error .overflow := by
  unfold intValue
  split
  · left; rfl
  · right; rfl

theorem internalYear_start (d : CalendarDate) :
    (if d.year < 0 then d.year + 4801 else d.year + 4800) = (astronomical d).year + 4800 := by
  unfold astronomical
  dsimp only
  split_ifs <;> omega

theorem internalYear_eq {d : CalendarDate} (hlow : 0 ≤ countedYear d)
    (hhigh : countedYear d < INT_MAX) :
    internalYear d.year d.month = .ok (countedYear d) := by
  have hint {x : ℤ} (hx : 0 ≤ x) (hx' : x ≤ countedYear d + 1) : intValue x = .ok x :=
    intValue_ok (by rw [INT_MAX]; omega) (by omega)
  have hmonth : (astronomical d).month = d.month := rfl
  unfold countedYear marchYear at hlow hint ⊢
  unfold internalYear
  rw [internalYear_start]
  rw [hmonth] at hlow hint ⊢
  split_ifs at hlow hint ⊢ with hm
  · rw [hint (by omega) (by omega), ok_bind]
    rfl
  · rw [hint (by omega) (by omega), ok_bind, hint (by omega) (by omega), sub_add_eq_add_sub]

theorem internalYear_or {d : CalendarDate} (hlow : 0 ≤ countedYear d) :
    internalYear d.year d.month = .ok (countedYear d) ∨
      internalYear d.year d.month = .error .overflow := by
  rcases lt_or_ge (countedYear d) INT_MAX with h | h
  · left
    exact internalYear_eq hlow h
  · have hmonth : (astronomical d).month = d.month := rfl
    unfold countedYear marchYear at h hlow ⊢
    unfold internalYear
    rw [internalYear_start]
    rw [hmonth] at h hlow ⊢
    rcases intValue_or ((astronomical d).year + 4800) with hok | herror
    · rw [hok, ok_bind]
      split_ifs at h hlow ⊢ with hm
      · left; rfl
      · rw [sub_add_eq_add_sub]
        exact intValue_or _
    · right
      rw [herror, error_bind]

theorem day_le {r : LeapRule} {d : CalendarDate} (h : ValidSdnDate r d) : d.day ≤ 31 := by
  have hleap := r.leapDay_eq_zero_or_one (astronomical d).year
  have hday : d.day ≤ r.monthLength (astronomical d).year d.month := h.valid.day_le
  unfold LeapRule.monthLength at hday
  split_ifs at hday <;> omega

theorem refused_iff {r : LeapRule} {d : CalendarDate} (h : ValidSdnDate r d) (first : ℤ) :
    refused first d.year d.month d.day ↔ d.year < first := by
  have hyear := h.year_ne
  have hday := day_le h
  have hmpos : 1 ≤ d.month := h.valid.month_pos
  have hmle : d.month ≤ 12 := h.valid.month_le
  have hdpos : 1 ≤ d.day := h.valid.day_pos
  unfold refused
  omega

theorem dayNumber_eq_counted (r : LeapRule) (d : CalendarDate) :
    r.dayNumber (astronomical d) = r.daysBeforeMarch (countedYear d - 4800) +
      daysBeforeMarchMonth (marchMonth d.month) + d.day := by
  unfold countedYear
  rw [add_sub_cancel_right]
  rfl

theorem countedYear_lt_iff {r : LeapRule} {d : CalendarDate} (h : ValidSdnDate r d) (y : ℤ) :
    countedYear d < y ↔ r.dayNumber (astronomical d) ≤ r.daysBeforeMarch (y - 4800) := by
  have hbounds := r.dayNumber_bounds h.valid
  unfold countedYear
  constructor
  · intro hlt
    have hyear : marchYear (astronomical d).year (astronomical d).month + 1 ≤ y - 4800 := by omega
    have hle := r.daysBeforeMarch_le hyear
    omega
  · intro hle
    by_contra hge
    have hyear : y - 4800 ≤ marchYear (astronomical d).year (astronomical d).month := by omega
    have hle' := r.daysBeforeMarch_le hyear
    omega

theorem countedYear_cases (d : CalendarDate) :
    countedYear d =
      d.year + 4800 + (if d.year < 0 then 1 else 0) - (if 2 < d.month then 0 else 1) := by
  unfold countedYear marchYear astronomical
  dsimp only
  split_ifs <;> omega

theorem daysBeforeMonth_tdiv {m : ℤ} (hpos : 1 ≤ m) (hle : m ≤ 12) :
    (internalMonth m * DAYS_PER_5_MONTHS + 2).tdiv 5 = daysBeforeMarchMonth (marchMonth m) := by
  have hbounds := LeapRule.marchMonth_bounds hpos hle
  rw [internalMonth_eq, Int.mul_comm]
  exact Int.tdiv_eq_ediv_of_nonneg (by rw [DAYS_PER_5_MONTHS]; omega)

/-! ## The Gregorian calendar -/

theorem gregorian_daysBeforeMarch (y : ℤ) :
    gregorian.daysBeforeMarch (y - 4800) = y / 100 * 146097 / 4 + y % 100 * 1461 / 4 - 1753164 := by
  have h : gregorian.leapsThrough (y - 4800) = Calendar.leapsThrough (y - 4800) := rfl
  unfold LeapRule.daysBeforeMarch
  have hcenturies : y / 100 * 146097 / 4 = 36524 * (y / 100) + y / 100 / 4 := by omega
  have hyears : y % 100 * 1461 / 4 = 365 * (y % 100) + y % 100 / 4 := by omega
  have hfour : (y - 4800) / 4 = 25 * (y / 100) + y % 100 / 4 - 1200 := by omega
  have hhundred : (y - 4800) / 100 = y / 100 - 48 := by omega
  have hfourHundred : (y - 4800) / 400 = y / 100 / 4 - 12 := by omega
  rw [h, hcenturies, hyears, Calendar.leapsThrough, hfour, hhundred, hfourHundred]
  omega

theorem gregorian_dayOfYear_le {c m : ℤ} (hm : 0 ≤ m) (hm' : m ≤ 36524)
    (hlast : m = 36524 → c % 4 = 3) :
    (m * 4 + 3) % 1461 / 4 + 1 ≤
      365 + gregorian.leapDay (c * 100 + (m * 4 + 3) / 1461 - 4800 + 1) := by
  have hleap : gregorian.leapDay (c * 100 + (m * 4 + 3) / 1461 - 4800 + 1) =
      Calendar.leapDay (c * 100 + (m * 4 + 3) / 1461 - 4800 + 1) := rfl
  rw [hleap]
  by_cases h : Calendar.Leap (c * 100 + (m * 4 + 3) / 1461 - 4800 + 1)
  · rw [Calendar.leapDay_of_leap h]
    omega
  · rw [Calendar.leapDay_of_not h]
    unfold Calendar.Leap at h
    by_contra hlong
    have hday : (m * 4 + 3) % 1461 = 1460 := by omega
    have hfourth : (m * 4 + 3) / 1461 % 4 = 3 := by omega
    have hlast' : (m * 4 + 3) / 1461 = 99 → c % 4 = 3 := fun hyear => hlast (by omega)
    have hyear : 0 ≤ (m * 4 + 3) / 1461 ∧ (m * 4 + 3) / 1461 ≤ 99 := by omega
    clear hleap hday hlong hm hm' hlast
    generalize (m * 4 + 3) / 1461 = y at *
    apply h
    refine ⟨by omega, ?_⟩
    by_cases hy : y = 99
    · have hc := hlast' hy
      right
      omega
    · left
      omega

theorem centuries_split {n : ℤ} :
    n = 36524 * ((n * 4 + 3) / 146097) + (n * 4 + 3) / 146097 / 4 + (n * 4 + 3) % 146097 / 4 ∧
      ((n * 4 + 3) % 146097 / 4 = 36524 → (n * 4 + 3) / 146097 % 4 = 3) := by
  have hdiv := Int.mul_ediv_add_emod (n * 4 + 3) 146097
  have hpos : 0 ≤ (n * 4 + 3) % 146097 := Int.emod_nonneg _ (by decide)
  have hlt : (n * 4 + 3) % 146097 < 146097 := Int.emod_lt_of_pos _ (by decide)
  generalize (n * 4 + 3) / 146097 = c at *
  generalize (n * 4 + 3) % 146097 = s at *
  have hfourth : s % 4 = 3 - c % 4 := by omega
  constructor
  · omega
  · intro hm
    omega

theorem years_split (m : ℤ) :
    m = 365 * ((m * 4 + 3) / 1461) + (m * 4 + 3) / 1461 / 4 + (m * 4 + 3) % 1461 / 4 := by omega

theorem gregorian_date {c m : ℤ} (hc : 0 ≤ c) (hc' : c ≤ 14701) (hm : 0 ≤ m) (hm' : m ≤ 36524)
    (hlast : m = 36524 → c % 4 = 3) :
    ∃ d, normalDate (c * 100 + (m * 4 + 3) / 1461) ((m * 4 + 3) % 1461 / 4 + 1) = .ok d ∧
      ValidSdnDate gregorian d ∧
      gregorian.dayNumber (astronomical d) = 36524 * c + c / 4 + m - 1753163 := by
  have hyear : 0 ≤ (m * 4 + 3) / 1461 ∧ (m * 4 + 3) / 1461 ≤ 99 := by omega
  obtain ⟨d, hnormal, hvalid, hnumber⟩ := normalDate_spec gregorian
    (show 0 ≤ c * 100 + (m * 4 + 3) / 1461 by omega) (by rw [INT_MAX]; omega)
    (show 1 ≤ (m * 4 + 3) % 1461 / 4 + 1 by omega)
    (gregorian_dayOfYear_le hm hm' hlast)
  refine ⟨d, hnormal, hvalid, ?_⟩
  have hsplit := years_split m
  rw [hnumber, gregorian_daysBeforeMarch]
  generalize (m * 4 + 3) / 1461 = y at *
  generalize (m * 4 + 3) % 1461 / 4 = n at *
  have hcentury : (c * 100 + y) / 100 = c := by omega
  have hyear' : (c * 100 + y) % 100 = y := by omega
  have hcenturies : c * 146097 / 4 = 36524 * c + c / 4 := by omega
  have hyears : y * 1461 / 4 = 365 * y + y / 4 := by omega
  rw [hcentury, hyear', hcenturies, hyears]
  omega

theorem sdnToGregorian_eq {sdn : ℤ} (hpos : 1 ≤ sdn) (hle : sdn ≤ 536874431) :
    ∃ d, sdnToGregorian sdn = .ok d ∧ ValidSdnDate gregorian d ∧
      gregorian.dayNumber (astronomical d) = sdn - 1721119 := by
  have hmax : Int.tdiv (9223372036854775807 - 4 * 32045) 4 = 2305843009213661906 := rfl
  have htemp : (sdn + 32045) * 4 - 1 = (sdn + 32044) * 4 + 3 := by omega
  obtain ⟨hsplit, hlast⟩ := centuries_split (n := sdn + 32044)
  have hdiv : ((sdn + 32044) * 4 + 3).tdiv 146097 = ((sdn + 32044) * 4 + 3) / 146097 :=
    Int.tdiv_eq_ediv_of_nonneg (by omega)
  have hmod : (((sdn + 32044) * 4 + 3).tmod 146097).tdiv 4 =
      ((sdn + 32044) * 4 + 3) % 146097 / 4 := by
    rw [Int.tmod_eq_emod_of_nonneg (by omega)]
    exact Int.tdiv_eq_ediv_of_nonneg (by omega)
  have hc : 0 ≤ ((sdn + 32044) * 4 + 3) / 146097 ∧
      ((sdn + 32044) * 4 + 3) / 146097 ≤ 14701 := by omega
  have hm : 0 ≤ ((sdn + 32044) * 4 + 3) % 146097 / 4 ∧
      ((sdn + 32044) * 4 + 3) % 146097 / 4 ≤ 36524 := by omega
  unfold sdnToGregorian DAYS_PER_4_YEARS DAYS_PER_400_YEARS GREGOR_SDN_OFFSET LONG_MAX
  rw [hmax, if_neg (by omega), htemp]
  dsimp only
  rw [hdiv, hmod]
  -- the century and the day of the century
  generalize ((sdn + 32044) * 4 + 3) / 146097 = c at *
  generalize ((sdn + 32044) * 4 + 3) % 146097 / 4 = m at *
  have hyears : (m * 4 + 3).tdiv 1461 = (m * 4 + 3) / 1461 :=
    Int.tdiv_eq_ediv_of_nonneg (by omega)
  have hdays : ((m * 4 + 3).tmod 1461).tdiv 4 = (m * 4 + 3) % 1461 / 4 := by
    rw [Int.tmod_eq_emod_of_nonneg (by omega)]
    exact Int.tdiv_eq_ediv_of_nonneg (by omega)
  have hint {x : ℤ} (hx : 0 ≤ x) (hx' : x ≤ 1470200) : toInt x = x :=
    toInt_eq hx (by rw [INT_MAX]; omega)
  have hyear : 0 ≤ (m * 4 + 3) / 1461 ∧ (m * 4 + 3) / 1461 ≤ 99 := by omega
  obtain ⟨d, hnormal, hvalid, hnumber⟩ := gregorian_date hc.1 hc.2 hm.1 hm.2 hlast
  refine ⟨d, ?_, hvalid, by omega⟩
  rw [hyears, hdays, hint hc.1 (by omega), intValue_ok (by rw [INT_MAX]; omega)
    (by rw [INT_MAX]; omega), ok_bind, hint (by omega) (by omega), hint (by omega) (by omega)]
  exact hnormal

theorem gregorian_first {d : CalendarDate} (h : ValidSdnDate gregorian d) :
    d.year < -4714 ∨ d.year = -4714 ∧ (d.month < 11 ∨ d.month = 11 ∧ d.day < 25) ↔
      gregorian.dayNumber (astronomical d) + 1721119 ≤ 0 := by
  have hmpos : 1 ≤ d.month := h.valid.month_pos
  have hmle : d.month ≤ 12 := h.valid.month_le
  have hdpos : 1 ≤ d.day := h.valid.day_pos
  have hday := day_le h
  have hyear := countedYear_cases d
  have hfirst : gregorian.daysBeforeMarch (87 - 4800) = -1721388 :=
    gregorian_daysBeforeMarch 87
  have hfirst' : gregorian.daysBeforeMarch (88 - 4800) = -1721022 :=
    gregorian_daysBeforeMarch 88
  have hbefore := countedYear_lt_iff h 87
  have hbefore' := countedYear_lt_iff h 88
  rw [hfirst] at hbefore
  rw [hfirst'] at hbefore'
  by_cases hy : countedYear d = 87
  · have hnumber := dayNumber_eq_counted gregorian d
    rw [hy, hfirst] at hnumber
    unfold daysBeforeMarchMonth marchMonth at hnumber
    split_ifs at hyear hnumber <;> omega
  · split_ifs at hyear <;> omega

theorem gregorianToSdn_eq {d : CalendarDate} (h : ValidSdnDate gregorian d)
    (hle : gregorian.dayNumber (astronomical d) + 1721119 ≤ 536874430) :
    gregorianToSdn d.year d.month d.day =
      .ok (max 0 (gregorian.dayNumber (astronomical d) + 1721119)) := by
  unfold gregorianToSdn
  have hfirst := gregorian_first h
  by_cases hrefused : refused (-4714) d.year d.month d.day
  · rw [if_pos hrefused, max_eq_left (hfirst.mp (Or.inl ((refused_iff h _).mp hrefused)))]
  rw [if_neg hrefused]
  by_cases hbefore : d.year = -4714 ∧ (d.month < 11 ∨ d.month = 11 ∧ d.day < 25)
  · rw [if_pos hbefore, max_eq_left (hfirst.mp (Or.inr hbefore))]
  rw [if_neg hbefore]
  rw [refused_iff h] at hrefused
  have hpos : 0 < gregorian.dayNumber (astronomical d) + 1721119 := by
    by_contra hneg
    exact (hfirst.mpr (not_lt.mp hneg)).elim hrefused hbefore
  have hlow : 0 ≤ countedYear d := by
    have hyear := countedYear_cases d
    split_ifs at hyear <;> omega
  have hhigh : countedYear d < 1470000 := by
    have hlast : gregorian.daysBeforeMarch (1470000 - 4800) = 535153311 :=
      gregorian_daysBeforeMarch 1470000
    apply (countedYear_lt_iff h _).mpr
    omega
  have hcenturies : (countedYear d).tdiv 100 = countedYear d / 100 :=
    Int.tdiv_eq_ediv_of_nonneg hlow
  have hyears : (countedYear d).tmod 100 = countedYear d % 100 := Int.tmod_eq_emod_of_nonneg hlow
  have hmonth : (internalMonth d.month * DAYS_PER_5_MONTHS + 2).tdiv 5 =
      daysBeforeMarchMonth (marchMonth d.month) :=
    daysBeforeMonth_tdiv h.valid.month_pos h.valid.month_le
  have hnumber := dayNumber_eq_counted gregorian d
  rw [gregorian_daysBeforeMarch] at hnumber
  have hint {x : ℤ} (hx : 0 ≤ x) (hx' : x ≤ 2147483647) : intValue x = .ok x :=
    intValue_ok (by rw [INT_MAX]; omega) (by rw [INT_MAX]; omega)
  rw [internalYear_eq hlow (by rw [INT_MAX]; omega), ok_bind]
  dsimp only
  rw [hmonth, hcenturies, hyears]
  unfold DAYS_PER_400_YEARS DAYS_PER_4_YEARS GREGOR_SDN_OFFSET
  rw [hint (by omega) (by omega), ok_bind, hint (by omega) (by omega), ok_bind,
    Int.tdiv_eq_ediv_of_nonneg (by omega), Int.tdiv_eq_ediv_of_nonneg (by omega),
    hint (by omega) (by omega), max_eq_right (by omega)]
  congr 1
  omega

theorem gregorianToSdn_overflow {d : CalendarDate} (h : ValidSdnDate gregorian d)
    (hlt : 536874430 < gregorian.dayNumber (astronomical d) + 1721119) :
    gregorianToSdn d.year d.month d.day = .error .overflow := by
  have hlast : gregorian.daysBeforeMarch (1470000 - 4800) = 535153311 :=
    gregorian_daysBeforeMarch 1470000
  have hhigh := mt (countedYear_lt_iff h 1470000).mp (by omega)
  have hyear := countedYear_cases d
  have hpos : 0 < d.year := by
    split_ifs at hyear <;> omega
  have hcenturies : (countedYear d).tdiv 100 = countedYear d / 100 :=
    Int.tdiv_eq_ediv_of_nonneg (by omega)
  unfold gregorianToSdn
  rw [if_neg (fun hr => absurd ((refused_iff h _).mp hr) (by omega)), if_neg (by omega)]
  rcases internalYear_or (d := d) (by omega) with hok | herror
  · have hproduct : intValue (countedYear d / 100 * 146097) = .error .overflow := by
      apply Text.intValue_error
      rw [INT_MAX]
      omega
    rw [hok, ok_bind, hcenturies]
    unfold DAYS_PER_400_YEARS
    rw [hproduct, error_bind]
  · rw [herror, error_bind]

theorem gregorian_specified : gregorianConversions.Specified 1721119 536874430 where
  fromSdn_eq _ hpos hle := sdnToGregorian_eq hpos hle
  toSdn_eq _ h hle := gregorianToSdn_eq h hle
  toSdn_overflow _ h hlt := gregorianToSdn_overflow h hlt

/-! ## The Julian calendar -/

theorem julian_daysBeforeMarch (y : ℤ) :
    julian.daysBeforeMarch (y - 4800) = y * 1461 / 4 - 1753200 := by
  have h : julian.leapsThrough (y - 4800) = (y - 4800) / 4 := rfl
  unfold LeapRule.daysBeforeMarch
  rw [h]
  omega

theorem julian_dayOfYear_le (m : ℤ) :
    (m * 4 + 3) % 1461 / 4 + 1 ≤ 365 + julian.leapDay ((m * 4 + 3) / 1461 - 4800 + 1) := by
  have hleap : julian.leapDay ((m * 4 + 3) / 1461 - 4800 + 1) =
      if ((m * 4 + 3) / 1461 - 4800 + 1) % 4 = 0 then 1 else 0 := rfl
  have hlt : (m * 4 + 3) % 1461 < 1461 := Int.emod_lt_of_pos _ (by decide)
  rw [hleap]
  split
  · omega
  · by_contra hlong
    have hday : (m * 4 + 3) % 1461 = 1460 := by omega
    omega

theorem sdnToJulian_eq {sdn : ℤ} (hpos : 1 ≤ sdn) (hle : sdn ≤ 536839031) :
    ∃ d, sdnToJulian sdn = .ok d ∧ ValidSdnDate julian d ∧
      julian.dayNumber (astronomical d) = sdn - 1721117 := by
  have hmax : Int.tdiv (9223372036854775807 - 32083 * 4 + 1) 4 = 2305843009213661869 := rfl
  obtain ⟨m, hm⟩ : ∃ m, m = sdn + 32082 := ⟨_, rfl⟩
  have htemp : sdn * 4 + (32083 * 4 - 1) = m * 4 + 3 := by omega
  have hyears : (m * 4 + 3).tdiv 1461 = (m * 4 + 3) / 1461 :=
    Int.tdiv_eq_ediv_of_nonneg (by omega)
  have hdays : ((m * 4 + 3).tmod 1461).tdiv 4 = (m * 4 + 3) % 1461 / 4 := by
    rw [Int.tmod_eq_emod_of_nonneg (by omega)]
    exact Int.tdiv_eq_ediv_of_nonneg (by omega)
  have hyear : 0 ≤ (m * 4 + 3) / 1461 ∧ (m * 4 + 3) / 1461 ≤ 1469873 := by omega
  have hint : toInt ((m * 4 + 3) % 1461 / 4 + 1) = (m * 4 + 3) % 1461 / 4 + 1 :=
    toInt_eq (by omega) (by rw [INT_MAX]; omega)
  obtain ⟨d, hnormal, hvalid, hnumber⟩ := normalDate_spec julian hyear.1
    (by rw [INT_MAX]; omega) (show 1 ≤ (m * 4 + 3) % 1461 / 4 + 1 by omega) (julian_dayOfYear_le m)
  refine ⟨d, ?_, hvalid, ?_⟩
  · unfold sdnToJulian DAYS_PER_4_YEARS JULIAN_SDN_OFFSET LONG_MAX INT_MAX
    rw [hmax, if_neg (by omega), htemp]
    dsimp only
    rw [hyears, hdays, if_neg (by omega), hint]
    exact hnormal
  · have hsplit := years_split m
    rw [hnumber, julian_daysBeforeMarch]
    generalize (m * 4 + 3) / 1461 = y at *
    have hdaysBefore : y * 1461 / 4 = 365 * y + y / 4 := by omega
    omega

theorem julian_first {d : CalendarDate} (h : ValidSdnDate julian d) :
    d.year < -4713 ∨ d.year = -4713 ∧ d.month = 1 ∧ d.day = 1 ↔
      julian.dayNumber (astronomical d) + 1721117 ≤ 0 := by
  have hmpos : 1 ≤ d.month := h.valid.month_pos
  have hmle : d.month ≤ 12 := h.valid.month_le
  have hdpos : 1 ≤ d.day := h.valid.day_pos
  have hday := day_le h
  have hyear := countedYear_cases d
  have hfirst : julian.daysBeforeMarch (87 - 4800) = -1721424 := julian_daysBeforeMarch 87
  have hfirst' : julian.daysBeforeMarch (88 - 4800) = -1721058 := julian_daysBeforeMarch 88
  have hbefore := countedYear_lt_iff h 87
  have hbefore' := countedYear_lt_iff h 88
  rw [hfirst] at hbefore
  rw [hfirst'] at hbefore'
  by_cases hy : countedYear d = 87
  · have hnumber := dayNumber_eq_counted julian d
    rw [hy, hfirst] at hnumber
    unfold daysBeforeMarchMonth marchMonth at hnumber
    split_ifs at hyear hnumber <;> omega
  · split_ifs at hyear <;> omega

theorem julianToSdn_eq {d : CalendarDate} (h : ValidSdnDate julian d)
    (hle : julian.dayNumber (astronomical d) + 1721117 ≤ 536839030) :
    julianToSdn d.year d.month d.day =
      .ok (max 0 (julian.dayNumber (astronomical d) + 1721117)) := by
  unfold julianToSdn
  have hfirst := julian_first h
  by_cases hrefused : refused (-4713) d.year d.month d.day
  · rw [if_pos hrefused, max_eq_left (hfirst.mp (Or.inl ((refused_iff h _).mp hrefused)))]
  rw [if_neg hrefused]
  by_cases hbefore : d.year = -4713 ∧ d.month = 1 ∧ d.day = 1
  · rw [if_pos hbefore, max_eq_left (hfirst.mp (Or.inr hbefore))]
  rw [if_neg hbefore]
  rw [refused_iff h] at hrefused
  have hpos : 0 < julian.dayNumber (astronomical d) + 1721117 := by
    by_contra hneg
    exact (hfirst.mpr (not_lt.mp hneg)).elim hrefused hbefore
  have hlow : 0 ≤ countedYear d := by
    have hyear := countedYear_cases d
    split_ifs at hyear <;> omega
  have hhigh : countedYear d < 1469873 := by
    have hlast : julian.daysBeforeMarch (1469873 - 4800) = 535117913 :=
      julian_daysBeforeMarch 1469873
    apply (countedYear_lt_iff h _).mpr
    omega
  have hmonth : (internalMonth d.month * DAYS_PER_5_MONTHS + 2).tdiv 5 =
      daysBeforeMarchMonth (marchMonth d.month) :=
    daysBeforeMonth_tdiv h.valid.month_pos h.valid.month_le
  have hnumber := dayNumber_eq_counted julian d
  rw [julian_daysBeforeMarch] at hnumber
  have hint {x : ℤ} (hx : 0 ≤ x) (hx' : x ≤ 2147483647) : intValue x = .ok x :=
    intValue_ok (by rw [INT_MAX]; omega) (by rw [INT_MAX]; omega)
  rw [internalYear_eq hlow (by rw [INT_MAX]; omega), ok_bind]
  dsimp only
  rw [hmonth]
  unfold DAYS_PER_4_YEARS JULIAN_SDN_OFFSET
  rw [hint (by omega) (by omega), ok_bind, Int.tdiv_eq_ediv_of_nonneg (by omega),
    hint (by omega) (by omega), max_eq_right (by omega)]
  congr 1
  omega

theorem julianToSdn_overflow {d : CalendarDate} (h : ValidSdnDate julian d)
    (hlt : 536839030 < julian.dayNumber (astronomical d) + 1721117) :
    julianToSdn d.year d.month d.day = .error .overflow := by
  have hlast : julian.daysBeforeMarch (1469873 - 4800) = 535117913 :=
    julian_daysBeforeMarch 1469873
  have hhigh := mt (countedYear_lt_iff h 1469873).mp (by omega)
  have hyear := countedYear_cases d
  have hpos : 0 < d.year := by
    split_ifs at hyear <;> omega
  unfold julianToSdn
  rw [if_neg (fun hr => absurd ((refused_iff h _).mp hr) (by omega)), if_neg (by omega)]
  rcases internalYear_or (d := d) (by omega) with hok | herror
  · have hproduct : intValue (countedYear d * 1461) = .error .overflow := by
      apply Text.intValue_error
      rw [INT_MAX]
      omega
    rw [hok, ok_bind]
    unfold DAYS_PER_4_YEARS
    rw [hproduct, error_bind]
  · rw [herror, error_bind]

theorem julian_specified : julianConversions.Specified 1721117 536839030 where
  fromSdn_eq _ hpos hle := sdnToJulian_eq hpos hle
  toSdn_eq _ h hle := julianToSdn_eq h hle
  toSdn_overflow _ h hlt := julianToSdn_overflow h hlt

/-! ## The two calendars -/

theorem before_march_iff {r : LeapRule} {d : CalendarDate} (h : ValidSdnDate r d) {y : ℤ}
    (hy : 0 < y) :
    d.year < y ∨ d.year = y ∧ d.month ≤ 2 ↔
      r.dayNumber (astronomical d) ≤ r.daysBeforeMarch (y + 4800 - 4800) := by
  have hyear := countedYear_cases d
  rw [← countedYear_lt_iff h]
  split_ifs at hyear <;> omega

/-- Day numbers and dates are inverse, and the next number is the next day, up to the last
date that the conversion of a date can do; the date of every later number is lost. -/
theorem sdn_inverse_iff (sdn : ℤ) (d : CalendarDate) :
    (1 ≤ sdn → sdnToGregorian sdn ≠ .ok noDate →
      (gregorianConversions.SdnExact sdn ↔ sdn ≤ 536874430)) ∧
    (ValidSdnDate gregorian d → gregorianToSdn d.year d.month d.day ≠ .ok 0 →
      (gregorianConversions.DateExact d ↔
        d.year < 1465200 ∨ d.year = 1465200 ∧ d.month ≤ 2)) ∧
    (1 ≤ sdn → sdnToJulian sdn ≠ .ok noDate →
      (julianConversions.SdnExact sdn ↔ sdn ≤ 536839030)) ∧
    (ValidSdnDate julian d → julianToSdn d.year d.month d.day ≠ .ok 0 →
      (julianConversions.DateExact d ↔ d.year < 1465073 ∨ d.year = 1465073 ∧ d.month ≤ 2)) := by
  have hgregorian : gregorian.daysBeforeMarch (1465200 + 4800 - 4800) = 535153311 :=
    gregorian_daysBeforeMarch 1470000
  have hjulian : julian.daysBeforeMarch (1465073 + 4800 - 4800) = 535117913 :=
    julian_daysBeforeMarch 1469873
  refine ⟨fun hpos _ => gregorian_specified.sdnExact_iff hpos, fun h haccepted => ?_,
    fun hpos _ => julian_specified.sdnExact_iff hpos, fun h haccepted => ?_⟩
  · have hexact : gregorianConversions.DateExact d ↔
        gregorian.dayNumber (astronomical d) + 1721119 ≤ 536874430 :=
      gregorian_specified.dateExact_iff h haccepted
    rw [hexact, before_march_iff h (by decide), hgregorian]
    omega
  · have hexact : julianConversions.DateExact d ↔
        julian.dayNumber (astronomical d) + 1721117 ≤ 536839030 :=
      julian_specified.dateExact_iff h haccepted
    rw [hexact, before_march_iff h (by decide), hjulian]
    omega

/-- The first day of both calendars, and a date of this one. -/
theorem sdn_inverse_first :
    gregorianConversions.SdnExact 1 ∧ gregorianConversions.DateExact ⟨2000, 2, 29⟩ ∧
      julianConversions.SdnExact 1 ∧ julianConversions.DateExact ⟨1900, 2, 29⟩ := by
  obtain ⟨hsdn, hdate, -⟩ := sdn_inverse_iff 1 ⟨2000, 2, 29⟩
  obtain ⟨-, -, hsdn', hdate'⟩ := sdn_inverse_iff 1 ⟨1900, 2, 29⟩
  refine ⟨(hsdn (by decide) (by decide)).mpr (by decide),
    (hdate ⟨by decide, ?_⟩ (by decide)).mpr (by decide),
    (hsdn' (by decide) (by decide)).mpr (by decide),
    (hdate' ⟨by decide, ?_⟩ (by decide)).mpr (by decide)⟩
  · exact ⟨by decide, by decide, by decide, by decide⟩
  · exact ⟨by decide, by decide, by decide, by decide⟩

/-- The number of 1 March 1465200 overflows, and so the number of this day is lost. -/
theorem not_sdn_inverse :
    sdnToGregorian 536874431 = .ok ⟨1465200, 3, 1⟩ ∧
      gregorianToSdn 1465200 3 1 = .error .overflow ∧
      ¬ gregorianConversions.SdnExact 536874431 := by
  refine ⟨by decide, by decide, ?_⟩
  rw [gregorian_specified.sdnExact_iff (by decide)]
  decide

end PhpRuntime.Date
