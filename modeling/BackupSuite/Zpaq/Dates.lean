import BackupSuite.Zpaq.Archive

/-! # Dates

`unix_time` undoes `decimal_time` (`unix_time_decimal_time`), and later times have greater
dates (`decimal_time_lt`), so that `adjustDate` finds a date behind the last one of the
archive.  The sum in `unix_time` is an `int`: this is true up to 2038.
-/

namespace BackupSuite.Zpaq

def days : List Nat := [0, 31, 59, 90, 120, 151, 181, 212, 243, 273, 304, 334]

/-- The inverse of `decimal_time`, in 32 bits. -/
def unix_time (date : Int) : Int :=
  if date ≤ 0 then -1
  else
    let year := (date.tdiv 10000000000).tmod 10000
    let month := ((date.tdiv 100000000).tmod 100 - 1).tmod 12
    let day := (date.tdiv 1000000).tmod 100
    let hour := (date.tdiv 10000).tmod 100
    let min := (date.tdiv 100).tmod 100
    let sec := date.tmod 100
    ((day - 1 + (days.getD month.toNat 0 : Nat) + (if year.tmod 4 = 0 ∧ 1 < month then 1 else 0) +
      ((year - 1970) * 1461 + 1).tdiv 4) * 86400 + hour * 3600 + min * 60 + sec).bmod 4294967296

/-- The date of an update, behind the last one. -/
def adjustDate (lastdate date : Int) : Int :=
  if lastdate ≥ date then decimal_time (unix_time lastdate + 1) else date

/-! ## Days -/

/-- The days of four years, with the three that are not leap years made as long as the fourth. -/
def skipLeap (t : Nat) : Nat :=
  let t := t + if 59 ≤ t then 1 else 0
  let t := t + if 425 ≤ t then 1 else 0
  t + if 1157 ≤ t then 1 else 0

/-- The days of a year, with all months made 31 days long. -/
def skipMonths (t : Nat) : Nat :=
  let t := t + if 60 ≤ t then 2 else 0
  let t := t + if 123 ≤ t then 1 else 0
  let t := t + if 185 ≤ t then 1 else 0
  let t := t + if 278 ≤ t then 1 else 0
  t + if 340 ≤ t then 1 else 0

/-- The day as YYYYMMDD. -/
def civil (d : Nat) : Nat :=
  let t := skipLeap (d % 1461)
  let month := skipMonths (t % 366)
  (d / 1461 * 4 + t / 366 + 1970) * 10000 + (month / 31 + 1) * 100 + (month % 31 + 1)

theorem skipLeap_le (t : Nat) : skipLeap t ≤ t + 3 := by
  rw [skipLeap]
  split <;> split <;> split <;> omega

theorem skipMonths_le (t : Nat) : skipMonths t ≤ t + 6 := by
  rw [skipMonths]
  split <;> split <;> split <;> split <;> split <;> omega

theorem skip_cast (r k c : Nat) :
    (r : Int) + (if (k : Int) ≤ (r : Int) then (c : Int) else 0) = ((r + if k ≤ r then c else 0 : Nat) : Int) := by
  split <;> split <;> omega

theorem skipLeap_cast (r : Nat) {r1 r2 r3 : Int} (h1 : r1 = r + if (59 : Int) ≤ r then 1 else 0)
    (h2 : r2 = r1 + if 425 ≤ r1 then 1 else 0) (h3 : r3 = r2 + if 1157 ≤ r2 then 1 else 0) : r3 = skipLeap r := by
  have n1 : r1 = (r + if 59 ≤ r then 1 else 0 : Nat) := h1.trans (skip_cast r 59 1)
  rw [n1] at h2
  have n2 := h2.trans (skip_cast _ 425 1)
  rw [n2] at h3
  exact h3.trans (skip_cast _ 1157 1)

theorem skipMonths_cast (r : Nat) {r1 r2 r3 r4 r5 : Int} (h1 : r1 = r + if (60 : Int) ≤ r then 2 else 0)
    (h2 : r2 = r1 + if 123 ≤ r1 then 1 else 0) (h3 : r3 = r2 + if 185 ≤ r2 then 1 else 0)
    (h4 : r4 = r3 + if 278 ≤ r3 then 1 else 0) (h5 : r5 = r4 + if 340 ≤ r4 then 1 else 0) : r5 = skipMonths r := by
  have n1 : r1 = (r + if 60 ≤ r then 2 else 0 : Nat) := h1.trans (skip_cast r 60 2)
  rw [n1] at h2
  have n2 := h2.trans (skip_cast _ 123 1)
  rw [n2] at h3
  have n3 := h3.trans (skip_cast _ 185 1)
  rw [n3] at h4
  have n4 := h4.trans (skip_cast _ 278 1)
  rw [n4] at h5
  exact h5.trans (skip_cast _ 340 1)

theorem year_cast (terms t : Nat) (small : terms < 100000) (bound : t ≤ 1463) :
    ((terms : Int) * 4 + (t : Int).tdiv 366 + 1970).bmod 4294967296 = (terms * 4 + t / 366 + 1970 : Nat) := by
  have quotient : (t : Int).tdiv 366 = (t / 366 : Nat) := rfl
  rw [quotient, Int.bmod_eq_of_le_mul_two (by omega) (by omega)]
  omega

theorem date_cast (year month day hour minute second : Nat) (years : year ≤ 1000000) (months : month ≤ 20)
    (days : day ≤ 31) (hours : hour ≤ 23) (minutes : minute ≤ 59) (seconds : second ≤ 59) :
    ((year : Int) * 10000000000 + month * 100000000 + day * 1000000 + hour * 10000 + minute * 100 + second).bmod
        18446744073709551616 =
      ((year * 10000 + month * 100 + day) * 1000000 + hour * 10000 + minute * 100 + second : Nat) := by
  rw [Int.bmod_eq_of_le_mul_two (by omega) (by omega)]
  omega

theorem decimal_time_eq (t : Nat) (small : t < 4294967296) :
    decimal_time t = (civil (t / 86400) * 1000000 + t / 3600 % 24 * 10000 + t / 60 % 60 * 100 + t % 60 : Nat) := by
  have known : ((t : Int) = -1) = False := by
    simp only [eq_iff_iff, iff_false]
    omega
  have terms : t / 86400 / 1461 < 100000 := by omega
  have leap : skipLeap (t / 86400 % 1461) ≤ 1463 := by
    have bound := skipLeap_le (t / 86400 % 1461)
    omega
  have years : t / 86400 / 1461 * 4 + skipLeap (t / 86400 % 1461) / 366 + 1970 ≤ 1000000 := by omega
  have months : skipMonths (skipLeap (t / 86400 % 1461) % 366) / 31 + 1 ≤ 20 := by
    have bound := skipMonths_le (skipLeap (t / 86400 % 1461) % 366)
    omega
  have days : skipMonths (skipLeap (t / 86400 % 1461) % 366) % 31 + 1 ≤ 31 := by omega
  have hours : t / 3600 % 24 ≤ 23 := by omega
  have minutes : t / 60 % 60 ≤ 59 := by omega
  have seconds : t % 60 ≤ 59 := by omega
  have first : (-4294967296 : Int) ≤ (t / 86400 / 1461 : Nat) * 2 ∧ ((t / 86400 / 1461 : Nat) : Int) * 2 < 4294967296 := by
    omega
  have termCast : ((t / 86400 : Nat) : Int).tdiv 1461 = (t / 86400 / 1461 : Nat) := rfl
  unfold decimal_time
  extract_lets tt second minute hour tt' term t0 t1 t2 t3 year u0 u1 u2 u3 u4 u5 month day
  have htt : tt = t := by simp only [tt, known, if_false]
  have hsecond : second = (t % 60 : Nat) := by simp only [second, htt]; rfl
  have hminute : minute = (t / 60 % 60 : Nat) := by simp only [minute, htt]; rfl
  have hhour : hour = (t / 3600 % 24 : Nat) := by simp only [hour, htt]; rfl
  have htt' : tt' = (t / 86400 : Nat) := by simp only [tt', htt]; rfl
  have hterm : term = (t / 86400 / 1461 : Nat) := by
    simp only [term, htt', termCast]
    exact Int.bmod_eq_of_le_mul_two first.1 first.2
  have h0 : t0 = (t / 86400 % 1461 : Nat) := by simp only [t0, htt']; rfl
  have h3 : t3 = skipLeap (t / 86400 % 1461) := skipLeap_cast _ (by rw [← h0]) rfl rfl
  have hyear : year = (t / 86400 / 1461 * 4 + skipLeap (t / 86400 % 1461) / 366 + 1970 : Nat) := by
    simp only [year, hterm, h3]
    exact year_cast _ _ terms leap
  have k0 : u0 = (skipLeap (t / 86400 % 1461) % 366 : Nat) := by simp only [u0, h3]; rfl
  have k5 : u5 = skipMonths (skipLeap (t / 86400 % 1461) % 366) := skipMonths_cast _ (by rw [← k0]) rfl rfl rfl rfl
  have hmonth : month = (skipMonths (skipLeap (t / 86400 % 1461) % 366) / 31 + 1 : Nat) := by
    simp only [month, k5]
    rfl
  have hday : day = (skipMonths (skipLeap (t / 86400 % 1461) % 366) % 31 + 1 : Nat) := by
    simp only [day, k5]
    rfl
  rw [hyear, hmonth, hday, hhour, hminute, hsecond, civil]
  exact date_cast _ _ _ _ _ _ years months days hours minutes seconds

/-- Every four years are like the first four. -/
theorem civil_add (q : Nat) {r : Nat} (small : r < 1461) : civil (1461 * q + r) = 40000 * q + civil r := by
  have terms : (1461 * q + r) / 1461 = q := by omega
  have day : (1461 * q + r) % 1461 = r := by omega
  have first : r / 1461 = 0 := by omega
  have same : r % 1461 = r := by omega
  rw [civil, civil, terms, day, first, same]
  omega

theorem civil_lt_succ (d : Nat) : civil d < civil (d + 1) := by
  have table : ∀ r < 1460, civil r < civil (r + 1) := by decide +kernel
  have wrap : civil 1460 < 40000 + civil 0 := by decide +kernel
  have split : d = 1461 * (d / 1461) + d % 1461 := (Nat.div_add_mod d 1461).symm
  have bound : d % 1461 < 1461 := Nat.mod_lt d (by decide)
  rcases Nat.lt_or_ge (d % 1461) 1460 with inside | last
  · have next : d + 1 = 1461 * (d / 1461) + (d % 1461 + 1) := by omega
    rw [next, civil_add _ (by omega)]
    conv => lhs; rw [split, civil_add _ bound]
    have := table _ inside
    omega
  · have here : d % 1461 = 1460 := by omega
    have next : d + 1 = 1461 * (d / 1461 + 1) + 0 := by omega
    rw [next, civil_add _ (by decide)]
    conv => lhs; rw [split, civil_add _ bound, here]
    omega

theorem civil_strictMono : StrictMono civil := strictMono_nat_of_lt_succ civil_lt_succ

/-- A later time has a greater date. -/
theorem decimal_time_lt {s t : Nat} (later : s < t) (small : t < 4294967296) : decimal_time s < decimal_time t := by
  rw [decimal_time_eq s (by omega), decimal_time_eq t small]
  have before : s = 86400 * (s / 86400) + 3600 * (s / 3600 % 24) + 60 * (s / 60 % 60) + s % 60 := by omega
  have after : t = 86400 * (t / 86400) + 3600 * (t / 3600 % 24) + 60 * (t / 60 % 60) + t % 60 := by omega
  rcases Nat.lt_or_eq_of_le (Nat.div_le_div_right (c := 86400) (Nat.le_of_lt later)) with day | day
  · have := civil_strictMono day
    omega
  · rw [day]
    rw [day] at before
    rcases Nat.lt_trichotomy (s / 3600 % 24) (t / 3600 % 24) with hour | hour | hour
    · omega
    · rcases Nat.lt_trichotomy (s / 60 % 60) (t / 60 % 60) with minute | minute | minute
      · omega
      · omega
      · omega
    · omega

theorem decimal_time_le {s t : Nat} (later : s ≤ t) (small : t < 4294967296) : decimal_time s ≤ decimal_time t := by
  rcases Nat.lt_or_eq_of_le later with before | rfl
  · exact Int.le_of_lt (decimal_time_lt before small)
  · exact Int.le_refl _

theorem lt_of_decimal_time_lt {s t : Nat} (before : decimal_time s < decimal_time t) (small : s < 4294967296) : s < t := by
  by_contra late
  exact absurd (decimal_time_le (Nat.le_of_not_lt late) small) (Int.not_le.mpr before)

theorem decimal_time_pos {t : Nat} (small : t < 4294967296) : 0 < decimal_time t := by
  have first : decimal_time (0 : Nat) = 19700101000000 := by decide
  have later := decimal_time_le (Nat.zero_le t) small
  omega

/-! ## From dates to times -/

/-- The number of a day that is written as YYYYMMDD. -/
def dayNumber (date : Nat) : Nat :=
  date % 100 - 1 + days.getD (date / 100 % 100 - 1) 0 +
    (if date / 10000 % 4 = 0 ∧ 1 < date / 100 % 100 - 1 then 1 else 0) + ((date / 10000 - 1970) * 1461 + 1) / 4

/-- A day of the calendar. -/
structure Day (date : Nat) : Prop where
  month : 1 ≤ date / 100 % 100 ∧ date / 100 % 100 ≤ 12
  day : 1 ≤ date % 100 ∧ date % 100 ≤ 31
  year : 1970 ≤ date / 10000

instance (date : Nat) : Decidable (Day date) :=
  decidable_of_iff ((1 ≤ date / 100 % 100 ∧ date / 100 % 100 ≤ 12) ∧ (1 ≤ date % 100 ∧ date % 100 ≤ 31) ∧
    1970 ≤ date / 10000) ⟨fun h => ⟨h.1, h.2.1, h.2.2⟩, fun h => ⟨h.month, h.day, h.year⟩⟩

theorem dayNumber_civil (d : Nat) : Day (civil d) ∧ dayNumber (civil d) = d := by
  have table : ∀ r < 1461, Day (civil r) ∧ dayNumber (civil r) = r := by decide +kernel
  have bound : d % 1461 < 1461 := Nat.mod_lt d (by decide)
  obtain ⟨valid, number⟩ := table _ bound
  have month := valid.month
  have day := valid.day
  have year := valid.year
  rw [← Nat.div_add_mod d 1461, civil_add _ bound]
  generalize civil (d % 1461) = date at month day year number ⊢
  have h1 : (40000 * (d / 1461) + date) % 100 = date % 100 := by omega
  have h2 : (40000 * (d / 1461) + date) / 100 % 100 = date / 100 % 100 := by omega
  have h3 : (40000 * (d / 1461) + date) / 10000 = 4 * (d / 1461) + date / 10000 := by omega
  have h4 : (4 * (d / 1461) + date / 10000) % 4 = date / 10000 % 4 := by omega
  refine ⟨⟨by rw [h2]; exact month, by rw [h1]; exact day, by omega⟩, ?_⟩
  have h5 : ((4 * (d / 1461) + date / 10000 - 1970) * 1461 + 1) / 4 =
      1461 * (d / 1461) + ((date / 10000 - 1970) * 1461 + 1) / 4 := by omega
  rw [dayNumber] at number ⊢
  rw [h1, h2, h3, h4, h5, Nat.add_left_comm, number]

theorem dayNumber_cast (day year days leap n hour min sec : Nat) (first : 1 ≤ day) (early : 1970 ≤ year)
    (number : day - 1 + days + leap + ((year - 1970) * 1461 + 1) / 4 = n) :
    ((day : Int) - 1 + days + leap + (((year : Int) - 1970) * 1461 + 1).tdiv 4) * 86400 + hour * 3600 + min * 60 + sec =
      (n * 86400 + hour * 3600 + min * 60 + sec : Nat) := by
  have quotient : (((year : Int) - 1970) * 1461 + 1).tdiv 4 = (((year - 1970) * 1461 + 1) / 4 : Nat) := by
    have cast : ((year : Int) - 1970) * 1461 + 1 = ((year - 1970) * 1461 + 1 : Nat) := by omega
    rw [cast]
    rfl
  rw [quotient]
  omega

theorem unix_time_eq (date h m s : Nat) (valid : Day date) (last : date < 100000000) (hours : h ≤ 23)
    (minutes : m ≤ 59) (seconds : s ≤ 59) {n : Nat} (whole : date * 1000000 + h * 10000 + m * 100 + s = n) :
    unix_time n = ((dayNumber date * 86400 + h * 3600 + m * 60 + s : Nat) : Int).bmod 4294967296 := by
  obtain ⟨⟨month1, month12⟩, ⟨day1, day31⟩, early⟩ := valid
  have e1 : n / 10000000000 % 10000 = date / 10000 := by omega
  have e2 : n / 100000000 % 100 = date / 100 % 100 := by omega
  have e3 : n / 1000000 % 100 = date % 100 := by omega
  have e4 : n / 10000 % 100 = h := by omega
  have e5 : n / 100 % 100 = m := by omega
  have e6 : n % 100 = s := by omega
  have positive : ¬((n : Int) ≤ 0) := by omega
  have c1 : ((n : Int).tdiv 10000000000).tmod 10000 = (date / 10000 : Nat) := by rw [← e1]; rfl
  have c2 : (((n : Int).tdiv 100000000).tmod 100 - 1).tmod 12 = (date / 100 % 100 - 1 : Nat) := by
    have cast : ((n : Int).tdiv 100000000).tmod 100 = (date / 100 % 100 : Nat) := by rw [← e2]; rfl
    have less : ((date / 100 % 100 : Nat) : Int) - 1 = (date / 100 % 100 - 1 : Nat) := by omega
    have wrap : (date / 100 % 100 - 1) % 12 = date / 100 % 100 - 1 := by omega
    rw [cast, less]
    conv => rhs; rw [← wrap]
    rfl
  have c3 : ((n : Int).tdiv 1000000).tmod 100 = (date % 100 : Nat) := by rw [← e3]; rfl
  have c4 : ((n : Int).tdiv 10000).tmod 100 = h := by rw [← e4]; rfl
  have c5 : ((n : Int).tdiv 100).tmod 100 = m := by rw [← e5]; rfl
  have c6 : (n : Int).tmod 100 = s := by rw [← e6]; rfl
  have leap : (if (((date / 10000 : Nat) : Int)).tmod 4 = 0 ∧ (1 : Int) < (date / 100 % 100 - 1 : Nat) then (1 : Int) else 0) =
      (if date / 10000 % 4 = 0 ∧ 1 < date / 100 % 100 - 1 then 1 else 0 : Nat) := by
    have cast : (((date / 10000 : Nat) : Int)).tmod 4 = (date / 10000 % 4 : Nat) := rfl
    rw [cast]
    split <;> split <;> omega
  unfold unix_time
  rw [if_neg positive]
  simp only [c1, c2, c3, c4, c5, c6, Int.toNat_natCast, leap]
  rw [dayNumber_cast _ _ _ _ _ _ _ _ day1 early rfl]
  rfl

/-- The time that a date stands for, as far as 32 bits hold it. -/
theorem unix_time_decimal_time (t : Nat) (small : t < 4294967296) :
    unix_time (decimal_time t) = (t : Int).bmod 4294967296 := by
  obtain ⟨valid, number⟩ := dayNumber_civil (t / 86400)
  have last : civil (t / 86400) < 99999999 := by
    have table : civil 49711 < 99999999 := by decide +kernel
    exact Nat.lt_of_le_of_lt (civil_strictMono.monotone (by omega)) table
  have split : t = t / 86400 * 86400 + t / 3600 % 24 * 3600 + t / 60 % 60 * 60 + t % 60 := by omega
  have time := unix_time_eq (civil (t / 86400)) (t / 3600 % 24) (t / 60 % 60) (t % 60) valid (by omega) (by omega)
    (by omega) (by omega) rfl
  rw [number, ← split] at time
  rw [decimal_time_eq t small]
  exact time

/-- So a date gives back its time up to the year 2038, and no longer. -/
theorem unix_time_inverse (t : Nat) (small : t < 4294967296) :
    unix_time (decimal_time t) = t ↔ t < 2147483648 := by
  rw [unix_time_decimal_time t small]
  constructor
  · intro same
    have bound := Int.bmod_lt (x := (t : Int)) (by decide : 0 < 4294967296)
    omega
  · intro early
    exact Int.bmod_eq_of_le_mul_two (by omega) (by omega)

/-! ## The date of an update -/

/-- The date is not before the clock, and it is behind the last one. -/
theorem adjustDate_decimal_time {last now : Nat} (early : last < 2147483647) (small : now < 2147483648) :
    ∃ t : Nat, adjustDate (decimal_time last) (decimal_time now) = decimal_time t ∧ last < t ∧ now ≤ t ∧
      t ≤ max (last + 1) now := by
  rw [adjustDate]
  have same : unix_time (decimal_time last) = last := (unix_time_inverse last (by omega)).mpr (by omega)
  split
  next behind =>
    refine ⟨last + 1, by rw [same]; rfl, by omega, ?_, by omega⟩
    by_contra late
    have later := decimal_time_lt (by omega : last < now) (by omega)
    omega
  next ahead =>
    refine ⟨now, rfl, ?_, le_rfl, by omega⟩
    by_contra late
    have late : now ≤ last := by omega
    rcases Nat.lt_or_eq_of_le late with before | equal
    · exact ahead (Int.le_of_lt (decimal_time_lt before (by omega)))
    · exact ahead (by rw [equal])

theorem adjustDate_decimal_time_behind :
    ∃ t : Nat, adjustDate (decimal_time (1704067200 : Nat)) (decimal_time (1600000000 : Nat)) = decimal_time t ∧
      1704067200 < t ∧ 1600000000 ≤ t ∧ t ≤ max (1704067200 + 1) 1600000000 :=
  adjustDate_decimal_time (by decide) (by decide)

end BackupSuite.Zpaq
