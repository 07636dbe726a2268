import Mathlib.Algebra.Group.Nat.Defs
import Backfill.Proofs.Dates
import Backfill.Timestamp

/-!
Reading a time back from its text. The times that have a text are those on the clock, with leap
seconds at the end of a minute only.
-/

namespace Backfill

namespace Timestamp

/-- The digits of `padded`. -/
def paddedDigits (width n : Nat) : List Char :=
  List.replicate (width - (Nat.toDigits 10 n).length) '0' ++ Nat.toDigits 10 n

theorem toList_padded (width n : Nat) : (padded width n).toList = paddedDigits width n :=
  String.toList_ofList

theorem ofDigits_paddedDigits (width n : Nat) : ofDigits (paddedDigits width n) = n := by
  have value : Nat.ofDigitChars 10 (paddedDigits width n) 0 = n := by
    rw [paddedDigits, Nat.ofDigitChars_append, Nat.ofDigitChars_replicate_zero, Nat.mul_zero,
      Nat.ofDigitChars_ten_toDigits]
  exact Nat.ofDigitChars_eq_foldl.symm.trans value

theorem isDigit_of_mem_paddedDigits {width n : Nat} {c : Char} (h : c ∈ paddedDigits width n) :
    c.isDigit = true := by
  rcases List.mem_append.mp h with h | h
  · rw [List.eq_of_mem_replicate h]
    rfl
  · exact Nat.isDigit_of_mem_toDigits (by decide) (by decide) h

theorem paddedDigits_ne_nil (width n : Nat) : paddedDigits width n ≠ [] :=
  List.append_ne_nil_of_right_ne_nil _ Nat.toDigits_ne_nil

theorem length_paddedDigits {width n : Nat} (hw : 0 < width) (hn : n < 10 ^ width) :
    (paddedDigits width n).length = width := by
  have fits := (Nat.length_toDigits_le_iff (by decide) hw).mpr hn
  rw [paddedDigits, List.length_append, List.length_replicate]
  omega

/-- What comes next, if anything does, is no digit. -/
def NoDigit (r : List Char) : Prop := ∀ c ∈ r.head?, c.isDigit = false

theorem noDigit_cons {c : Char} (h : c.isDigit = false) (r : List Char) : NoDigit (c :: r) := by
  intro d hd
  cases hd
  exact h

theorem NoDigit.take {r : List Char} (h : NoDigit r) (n : Nat) : NoDigit (r.take n) := by
  intro c hc
  rw [List.head?_take] at hc
  split at hc
  · cases hc
  · exact h c hc

theorem takeWhile_isDigit {ds r : List Char} (hd : ∀ c ∈ ds, c.isDigit = true) (hr : NoDigit r) :
    (ds ++ r).takeWhile Char.isDigit = ds := by
  rw [List.takeWhile_append_of_pos hd]
  cases r with
  | nil => exact List.append_nil ds
  | cons c r => rw [List.takeWhile_cons, hr c rfl, if_neg (by decide), List.append_nil]

theorem isDigit_iff {c : Char} : c.isDigit = true ↔ 48 ≤ c.toNat ∧ c.toNat ≤ 57 := by
  rw [Char.isDigit, Bool.and_eq_true, decide_eq_true_eq, decide_eq_true_eq]
  exact Iff.rfl

/-- There are ten digits to look at. -/
theorem isBlank_of_isDigit {c : Char} (h : c.isDigit = true) : isBlank c = false := by
  obtain ⟨low, high⟩ := isDigit_iff.mp h
  have all : ∀ n ≤ 57, 48 ≤ n → isBlank (Char.ofNat n) = false := by decide
  exact Char.ofNat_toNat c ▸ all c.toNat high low

theorem skipBlanks_of_not_blank {c : Char} (h : isBlank c = false) (r : List Char) :
    skipBlanks (c :: r) = c :: r := by
  rw [skipBlanks, List.dropWhile_cons, h]
  rfl

theorem skipBlanks_digits {ds : List Char} (hd : ∀ c ∈ ds, c.isDigit = true) (nonempty : ds ≠ [])
    (r : List Char) : skipBlanks (ds ++ r) = ds ++ r := by
  obtain ⟨d, ds, rfl⟩ := List.exists_cons_of_ne_nil nonempty
  exact skipBlanks_of_not_blank (isBlank_of_isDigit (hd d List.mem_cons_self)) _

/-- Digits are read up to the most that there may be, or up to what is none. -/
theorem digits_append {most : Nat} {ds r : List Char} (hd : ∀ c ∈ ds, c.isDigit = true)
    (nonempty : ds ≠ []) (fits : ds.length ≤ most) (ends : ds.length = most ∨ NoDigit r) :
    digits most (ds ++ r) = some (ds, r) := by
  have taken : ((ds ++ r).take most).takeWhile Char.isDigit = ds := by
    rw [List.take_append, List.take_of_length_le fits]
    apply takeWhile_isDigit hd
    rcases ends with full | other
    · rw [full, Nat.sub_self, List.take_zero]
      exact fun _ h => absurd h (Option.not_mem_none _)
    · exact other.take _
  rw [digits, taken]
  simp [nonempty]

theorem digits_padded {width n : Nat} (hw : 0 < width) (hn : n < 10 ^ width) (r : List Char) :
    digits width (paddedDigits width n ++ r) = some (paddedDigits width n, r) :=
  have length := length_paddedDigits hw hn
  digits_append (fun _ => isDigit_of_mem_paddedDigits) (paddedDigits_ne_nil width n)
    (Nat.le_of_eq length) (.inl length)

theorem number_padded {width n : Nat} (hw : 0 < width) (hn : n < 10 ^ width) (r : List Char) :
    number width (paddedDigits width n ++ r) = some (n, r) := by
  rw [number, skipBlanks_digits (fun _ => isDigit_of_mem_paddedDigits) (paddedDigits_ne_nil _ _),
    digits_padded hw hn]
  simp only [Option.map_some, ofDigits_paddedDigits]

theorem number_two {n : Nat} (hn : n < 100) (r : List Char) :
    number 2 (paddedDigits 2 n ++ r) = some (n, r) := number_padded (by decide) hn r

theorem mark_cons {c : Char} (h : isBlank c = false) (r : List Char) :
    mark c (c :: r) = some ((), r) := by
  rw [mark, skipBlanks_of_not_blank h]
  exact if_pos rfl

theorem toList_writeYear (y : Int) : (writeYear y).toList =
    if 0 ≤ y ∧ y ≤ 9999 then paddedDigits 4 y.toNat
    else (if y < 0 then '-' else '+') :: paddedDigits 4 y.natAbs := by
  rw [writeYear]
  split
  · exact toList_padded 4 y.toNat
  · rw [String.toList_append, toList_padded]
    split <;> rfl

theorem ne_of_isDigit {c d : Char} (hc : c.isDigit = true) (hd : d.isDigit = false) : c ≠ d := by
  intro same
  rw [same, hd] at hc
  cases hc

/-- A year that starts with a digit has no sign. -/
theorem year_digits {ds r : List Char} (hd : ∀ c ∈ ds, c.isDigit = true) (nonempty : ds ≠ []) :
    year (ds ++ r) = (digits 4 (ds ++ r)).map fun (ds, r) => ((ofDigits ds : Int), r) := by
  rw [year, skipBlanks_digits hd nonempty]
  obtain ⟨d, ds, rfl⟩ := List.exists_cons_of_ne_nil nonempty
  have first := hd d List.mem_cons_self
  split
  · rename_i h
    exact absurd (List.cons.inj h).1 (ne_of_isDigit first rfl)
  · rename_i h
    exact absurd (List.cons.inj h).1 (ne_of_isDigit first rfl)
  · rfl

theorem year_minus (r : List Char) :
    year ('-' :: r) = (digits r.length r).map fun (ds, r) => (-(ofDigits ds : Int), r) := rfl

theorem year_plus (r : List Char) :
    year ('+' :: r) = (digits r.length r).map fun (ds, r) => ((ofDigits ds : Int), r) := rfl

theorem year_writeYear (y : Int) {r : List Char} (hr : NoDigit r) :
    year ((writeYear y).toList ++ r) = some (y, r) := by
  rw [toList_writeYear]
  by_cases plain : 0 ≤ y ∧ y ≤ 9999
  · have small : y.toNat < 10 ^ 4 := by
      have : y.toNat ≤ 9999 := Int.toNat_le.mpr plain.2
      omega
    rw [if_pos plain, year_digits (fun _ => isDigit_of_mem_paddedDigits) (paddedDigits_ne_nil _ _),
      digits_padded (by decide) small]
    simp only [Option.map_some, ofDigits_paddedDigits, Int.toNat_of_nonneg plain.1]
  · have signed : digits (paddedDigits 4 y.natAbs ++ r).length (paddedDigits 4 y.natAbs ++ r) =
        some (paddedDigits 4 y.natAbs, r) :=
      digits_append (fun _ => isDigit_of_mem_paddedDigits) (paddedDigits_ne_nil _ _)
        (by rw [List.length_append]; exact Nat.le_add_right _ _) (.inr hr)
    rw [if_neg plain]
    by_cases negative : y < 0
    · have value : -(y.natAbs : Int) = y := by omega
      rw [if_pos negative, List.cons_append, year_minus, signed]
      simp only [Option.map_some, ofDigits_paddedDigits, value]
    · have value : (y.natAbs : Int) = y := by omega
      rw [if_neg negative, List.cons_append, year_plus, signed]
      simp only [Option.map_some, ofDigits_paddedDigits, value]

theorem fraction_padded {width n : Nat} (hw : 0 < width) (most : width ≤ 9) (hn : n < 10 ^ width)
    {r : List Char} (hr : NoDigit r) :
    fraction ('.' :: (paddedDigits width n ++ r)) = some (n * 10 ^ (9 - width), r) := by
  have length := length_paddedDigits hw hn
  have none : r.dropWhile Char.isDigit = r := by
    cases r with
    | nil => rfl
    | cons c r => rw [List.dropWhile_cons, hr c rfl, if_neg (by decide)]
  rw [fraction, digits_append (fun _ => isDigit_of_mem_paddedDigits) (paddedDigits_ne_nil _ _)
    (by rw [length]; exact most) (.inr hr)]
  simp only [Option.map_some, none, ofDigits_paddedDigits, length]
  rfl

theorem fraction_writeFraction {n : Nat} (hn : n < 1000000000) (r : List Char) :
    fraction ((writeFraction n).toList ++ 'Z' :: r) = some (n, 'Z' :: r) := by
  have point {width k : Nat} (hw : 0 < width) (most : width ≤ 9) (hk : k < 10 ^ width)
      (value : k * 10 ^ (9 - width) = n) :
      fraction (("." ++ padded width k).toList ++ 'Z' :: r) = some (n, 'Z' :: r) := by
    rw [String.toList_append, toList_padded, ← value]
    exact fraction_padded hw most hk (noDigit_cons rfl r)
  rw [writeFraction]
  split
  · rename_i zero
    rw [zero]
    rfl
  · split
    · exact point (by decide) (by decide) (by omega) (by omega)
    · split
      · exact point (by decide) (by decide) (by omega) (by omega)
      · exact point (by decide) (by decide) (by omega) (by omega)

theorem date_append {d : Date} (hm : d.month < 100) (hd : d.day < 100) (r : List Char) :
    date ((writeYear d.year).toList ++ '-' :: (paddedDigits 2 d.month ++ '-' ::
      (paddedDigits 2 d.day ++ r))) = some (d, r) := by
  have year := year_writeYear d.year (noDigit_cons (c := '-') rfl
    (paddedDigits 2 d.month ++ '-' :: (paddedDigits 2 d.day ++ r)))
  simp only [date, year, Option.bind_eq_bind, Option.bind_some, mark_cons (c := '-') (by decide),
    number_two hm, number_two hd]

/-- A second numbered 60 runs on from the one before it. -/
theorem timeOfDay_append {h m s f : Nat} (hh : h < 24) (hm : m < 60) (hs : s ≤ 60)
    (hf : f < 1000000000) (r : List Char) :
    timeOfDay (paddedDigits 2 h ++ ':' :: (paddedDigits 2 m ++ ':' :: (paddedDigits 2 s ++
      ((writeFraction f).toList ++ 'Z' :: r)))) =
    some (((h * 60 + m) * 60 + min s 59, if s < 60 then f else 1000000000 + f), 'Z' :: r) := by
  simp only [timeOfDay, Option.bind_eq_bind, Option.bind_some, mark_cons (c := ':') (by decide),
    number_two (by omega : h < 100), number_two (by omega : m < 100),
    number_two (by omega : s < 100), fraction_writeFraction hf]
  by_cases leap : s < 60
  · rw [if_pos ⟨hh, hm, leap⟩, if_pos leap, Nat.min_eq_left (by omega)]
  · rw [if_neg (by omega), if_pos ⟨hh, hm, by omega⟩, if_neg leap, Nat.min_eq_right (by omega)]

/-- The times that a clock shows. -/
structure Tellable (c : ClockTime) : Prop where
  onClock : onClock c.second = true
  /-- A leap second is the last of its minute. -/
  leap : c.isLeap = true → c.second % 60 = 59

theorem ofParts_second_nanos (c : ClockTime) : ClockTime.ofParts c.second c.nanos = c := by
  rw [ClockTime.ofParts, Int.mul_comm]
  exact Int.mul_ediv_add_emod c ClockTime.perSecond

theorem toList_briefClock (c : ClockTime) :
    let date := Date.ofDay (c.second / secondsPerDay)
    let secs := (c.second % secondsPerDay).toNat
    (briefClock c).toList = (writeYear date.year).toList ++
      '-' :: (paddedDigits 2 date.month ++ '-' :: (paddedDigits 2 date.day ++
      'T' :: (paddedDigits 2 (secs / 3600) ++ ':' :: (paddedDigits 2 (secs / 60 % 60) ++
      ':' :: (paddedDigits 2 (secs % 60 + c.isLeap.toNat) ++
      ((writeFraction (c.nanos % Duration.second).toNat).toList ++ ['Z'])))))) := by
  simp only [briefClock, write, String.toList_append, toList_padded, List.append_assoc]
  rfl

theorem separator_cons (r : List Char) : separator ('T' :: r) = some ((), r) := rfl

theorem zone_greenwich : zone ['Z'] = some (0, []) := rfl

/-- The seconds and nanoseconds that a text in three parts and a fraction stands for. -/
theorem read_of_parts (text : String) {d : Date} {secs nanos : Nat} {cs : List Char}
    (dated : date text.toList = some (d, 'T' :: cs))
    (timed : timeOfDay cs = some ((secs, nanos), ['Z']))
    (valid : d.isValid = true) (near : onClock (d.toDay * secondsPerDay + secs) = true) :
    read text = some (.ofParts (d.toDay * secondsPerDay + secs) nanos) := by
  have greenwich : (0 : Int).natAbs < 86400 := by decide
  simp only [read, Option.bind_eq_bind, Option.bind_some, dated, separator_cons, timed,
    zone_greenwich, Int.sub_zero]
  exact if_pos ⟨rfl, valid, greenwich, near, near⟩

/-- What the text says of the seconds of the day and of the nanoseconds. -/
theorem clock_parts {c : ClockTime} {secs : Nat} (leap : c.isLeap = true → secs % 60 = 59) :
    let s := secs % 60 + c.isLeap.toNat
    let f := (c.nanos % Duration.second).toNat
    s ≤ 60 ∧ (secs / 3600 * 60 + secs / 60 % 60) * 60 + min s 59 = secs ∧
      ((if s < 60 then f else 1000000000 + f : Nat) : Int) = c.nanos := by
  have bounds : 0 ≤ c.nanos ∧ c.nanos < 2000000000 := by
    simp only [ClockTime.nanos, ClockTime.perSecond]
    omega
  cases h : c.isLeap with
  | false =>
    have plain : c.nanos < 1000000000 := Int.not_le.mp (of_decide_eq_false h)
    simp only [Bool.toNat_false, Duration.second]
    refine ⟨by omega, by omega, ?_⟩
    rw [if_pos (by omega)]
    omega
  | true =>
    have late : 1000000000 ≤ c.nanos := of_decide_eq_true h
    have last := leap h
    simp only [Bool.toNat_true, Duration.second]
    refine ⟨by omega, by omega, ?_⟩
    rw [if_neg (by omega)]
    omega

/-- Every date has a month and a day of two digits. -/
theorem two_digits {d : Date} (valid : d.isValid = true) : d.month < 100 ∧ d.day < 100 := by
  obtain ⟨⟨_, month⟩, _, day⟩ := Date.isValid_iff.mp valid
  have days : Date.daysIn d.year d.month ≤ 31 := by
    simp only [Date.daysIn]
    split
    · split <;> decide
    · split <;> decide
  omega

theorem read_briefClock {c : ClockTime} (h : Tellable c) : read (briefClock c) = some c := by
  have valid := Date.isValid_ofDay (c.second / secondsPerDay)
  have back := Date.toDay_ofDay (c.second / secondsPerDay)
  obtain ⟨month, day⟩ := two_digits valid
  have inDay : (c.second % secondsPerDay).toNat < 86400 := by
    simp only [secondsPerDay]
    omega
  have total : (Date.ofDay (c.second / secondsPerDay)).toDay * secondsPerDay +
      (c.second % secondsPerDay).toNat = c.second := by
    rw [back]
    simp only [secondsPerDay]
    omega
  have last : c.isLeap = true → (c.second % secondsPerDay).toNat % 60 = 59 := by
    intro leap
    have := h.leap leap
    simp only [secondsPerDay]
    omega
  obtain ⟨second, secs, nanos⟩ := clock_parts last
  have whole := read_of_parts (briefClock c)
    ((congrArg date (toList_briefClock c)).trans (date_append month day _))
    (timeOfDay_append (by omega) (by omega) second (by simp only [Duration.second]; omega) [])
    valid
  rw [secs, nanos, total, ofParts_second_nanos] at whole
  exact whole h.onClock

theorem digitValue_lt {c : Char} (h : c.isDigit = true) : digitValue c < 10 := by
  have := isDigit_iff.mp h
  have zero : '0'.toNat = 48 := rfl
  simp only [digitValue]
  omega

theorem ofDigits_lt {ds : List Char} (hd : ∀ c ∈ ds, c.isDigit = true) :
    ofDigits ds < 10 ^ ds.length := by
  have counted (ds : List Char) (hd : ∀ c ∈ ds, c.isDigit = true) (n : Nat) :
      ds.foldl (fun n c => 10 * n + digitValue c) n < (n + 1) * 10 ^ ds.length := by
    induction ds generalizing n with
    | nil => simp
    | cons c ds ih =>
      have first := digitValue_lt (hd c List.mem_cons_self)
      have rest := ih (fun d h => hd d (List.mem_cons_of_mem _ h)) (10 * n + digitValue c)
      refine Nat.lt_of_lt_of_le rest ?_
      rw [List.length_cons, Nat.pow_succ', ← Nat.mul_assoc]
      exact Nat.mul_le_mul_right _ (by omega)
  have value := counted ds hd 0
  rw [Nat.zero_add, Nat.one_mul] at value
  exact value

theorem digits_eq_some {most : Nat} {cs ds r : List Char} (h : digits most cs = some (ds, r)) :
    ds.length ≤ most ∧ ∀ c ∈ ds, c.isDigit = true := by
  rw [digits] at h
  split at h
  · cases h
  · cases h
    refine ⟨?_, fun c hc => ?_⟩
    · exact Nat.le_trans (List.takeWhile_sublist _).length_le (List.length_take_le ..)
    · exact List.all_eq_true.mp List.all_takeWhile c hc

theorem fraction_lt {cs r : List Char} {f : Nat} (h : fraction cs = some (f, r)) :
    f < 1000000000 := by
  unfold fraction at h
  split at h
  · obtain ⟨⟨ds, rest⟩, read, eq⟩ := Option.map_eq_some_iff.mp h
    cases eq
    obtain ⟨length, isDigit⟩ := digits_eq_some read
    calc ofDigits ds * 10 ^ (9 - ds.length)
        < 10 ^ ds.length * 10 ^ (9 - ds.length) :=
          Nat.mul_lt_mul_of_pos_right (ofDigits_lt isDigit) (Nat.pow_pos (by decide))
      _ = 10 ^ 9 := by rw [← Nat.pow_add, Nat.add_sub_cancel' length]
  · cases h
    decide

theorem timeOfDay_eq_some {cs r : List Char} {secs nanos : Nat}
    (h : timeOfDay cs = some ((secs, nanos), r)) :
    nanos < 1000000000 ∨ nanos < 2000000000 ∧ secs % 60 = 59 := by
  simp only [timeOfDay, Option.bind_eq_bind, Option.bind_eq_some_iff] at h
  obtain ⟨⟨hour, _⟩, _, _, _, ⟨minute, _⟩, _, _, _, ⟨s, _⟩, _, ⟨f, _⟩, read, h⟩ := h
  have small := fraction_lt read
  split at h
  · cases h
    exact .inl small
  · split at h
    · cases h
      exact .inr ⟨by omega, by omega⟩
    · cases h

theorem zone_eq_some {cs r : List Char} {east : Int} (h : zone cs = some (east, r)) :
    east % 60 = 0 := by
  have minutes {cs : List Char} {f : Nat → Int} (hf : ∀ m, f m % 60 = 0)
      (h : (zoneMinutes cs).map (fun m => (f m.1, m.2)) = some (east, r)) : east % 60 = 0 := by
    obtain ⟨⟨m, rest⟩, _, eq⟩ := Option.map_eq_some_iff.mp h
    cases eq
    exact hf m
  have ahead (m : Nat) : (m * 60 : Int) % 60 = 0 := Int.mul_emod_left ..
  have behind (m : Nat) : (-m * 60 : Int) % 60 = 0 := Int.mul_emod_left ..
  rw [zone] at h
  split at h
  · cases h
    rfl
  · cases h
    rfl
  · exact minutes ahead h
  · exact minutes behind h
  · exact minutes behind h
  · split at h
    · cases h
      rfl
    · cases h
  · cases h

theorem second_ofParts {second nanos : Int} (low : 0 ≤ nanos) (high : nanos < 2000000000) :
    ClockTime.second (.ofParts second nanos) = second := by
  simp only [ClockTime.second, ClockTime.ofParts, ClockTime.perSecond]
  omega

theorem nanos_ofParts {second nanos : Int} (low : 0 ≤ nanos) (high : nanos < 2000000000) :
    ClockTime.nanos (.ofParts second nanos) = nanos := by
  simp only [ClockTime.nanos, ClockTime.ofParts, ClockTime.perSecond]
  omega

theorem tellable_of_read {text : String} {c : ClockTime} (h : read text = some c) : Tellable c := by
  simp only [read, Option.bind_eq_bind, Option.bind_eq_some_iff] at h
  obtain ⟨⟨d, _⟩, _, _, _, ⟨⟨secs, nanos⟩, _⟩, timed, ⟨east, _⟩, zoned, h⟩ := h
  split at h
  · rename_i fits
    cases h
    have parts := timeOfDay_eq_some timed
    have minutes := zone_eq_some zoned
    have here : ClockTime.second (.ofParts (d.toDay * secondsPerDay + secs - east) nanos) = _ :=
      second_ofParts (by omega) (by omega)
    refine ⟨?_, fun leap => ?_⟩
    · rw [here]
      exact fits.2.2.2.2
    · have late : 1000000000 ≤ ClockTime.nanos (.ofParts _ _) := of_decide_eq_true leap
      rw [nanos_ofParts (by omega) (by omega)] at late
      rw [here]
      simp only [secondsPerDay]
      omega
  · cases h

/-- The times that texts stand for are those that a clock shows. -/
theorem tellable_iff {c : ClockTime} : Tellable c ↔ ∃ text, read text = some c := by
  constructor
  · intro h
    exact ⟨_, read_briefClock h⟩
  · intro h
    obtain ⟨text, h⟩ := h
    exact tellable_of_read h

end Timestamp

end Backfill
