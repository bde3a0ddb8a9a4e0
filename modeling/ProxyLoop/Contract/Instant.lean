import ProxyLoop.Contract.Time
import ProxyLoop.Lib.Json

/-!
# The text of an instant

`isoText` writes the second of an instant: two instants have one text exactly when they are of one
second.
-/

namespace ProxyLoop.Time

open Lib.Json (Stops run_cancel stops_cons)

/-! ## Days -/

theorem daysBeforeYear_succ (year : Nat) (h : 1 ≤ year) :
    daysBeforeYear year + 365 ≤ daysBeforeYear (year + 1) ∧
      daysBeforeYear (year + 1) ≤ daysBeforeYear year + 366 := by
  unfold daysBeforeYear
  dsimp only
  omega

theorem daysBeforeYear_mean (y : Nat) :
    400 * daysBeforeYear (y + 1) ≤ 146097 * y + 396 ∧
      146097 * y ≤ 400 * daysBeforeYear (y + 1) + 699 := by
  unfold daysBeforeYear
  dsimp only
  omega

theorem year_spec {n : Nat} (h : 1 ≤ n) :
    daysBeforeYear (ofOrdinal n).year < n ∧ n ≤ daysBeforeYear (ofOrdinal n).year + 366 := by
  generalize hq : n * 400 / 146097 = q
  have bounds : 146097 * q ≤ 400 * n ∧ 400 * n < 146097 * (q + 1) := by omega
  have step := daysBeforeYear_succ (q + 1) (by omega)
  unfold ofOrdinal
  rw [hq]
  dsimp only
  split
  · rename_i late
    rw [Nat.add_sub_cancel]
    cases q with
    | zero => exact absurd late (by show ¬ n ≤ 0; omega)
    | succ y =>
      have mean := daysBeforeYear_mean y
      have year := daysBeforeYear_succ (y + 1) (by omega)
      omega
  · split
    · have mean := daysBeforeYear_mean (q + 1)
      omega
    · omega

def monthsBefore (year left : Nat) : Nat :=
  ((List.range' 1 12).filter fun m => daysBeforeMonth year m < left).length

theorem daysInMonth_leap {year year' : Nat} (same : isLeap year = isLeap year') (month : Nat) :
    daysInMonth year month = daysInMonth year' month := by
  unfold daysInMonth
  rw [same]

/-- A day's number in its year is its month's, and its own. -/
theorem month_spec (year left : Nat) (some_ : 1 ≤ left) (few : left ≤ 366) :
    daysBeforeMonth year (monthsBefore year left) < left := by
  have days : ∀ year' ∈ [1, 4], ∀ left < 367, 1 ≤ left →
      daysBeforeMonth year' (monthsBefore year' left) < left := by
    decide +kernel
  have same : ∀ year', isLeap year = isLeap year' →
      daysBeforeMonth year = daysBeforeMonth year' := by
    intro year' leap
    funext month
    unfold daysBeforeMonth
    rw [List.map_congr_left fun m _ => daysInMonth_leap leap m]
  have table : ∀ year', isLeap year = isLeap year' → year' ∈ [1, 4] →
      daysBeforeMonth year (monthsBefore year left) < left := by
    intro year' leap mem
    have own := days year' mem left (by omega) some_
    unfold monthsBefore at own ⊢
    rwa [same year' leap]
  cases leap : isLeap year with
  | false => exact table 1 (by rw [leap]; rfl) (by decide)
  | true => exact table 4 (by rw [leap]; rfl) (by decide)

/-- The date of a day is of no other day. -/
theorem ofOrdinal_ordinal {n : Nat} (h : 1 ≤ n) : (ofOrdinal n).ordinal = n := by
  obtain ⟨before, few⟩ := year_spec h
  have day : (ofOrdinal n).day = n - daysBeforeYear (ofOrdinal n).year -
      daysBeforeMonth (ofOrdinal n).year (ofOrdinal n).month := rfl
  have month : (ofOrdinal n).month =
      monthsBefore (ofOrdinal n).year (n - daysBeforeYear (ofOrdinal n).year) := rfl
  have days := month_spec (ofOrdinal n).year (n - daysBeforeYear (ofOrdinal n).year)
    (by omega) (by omega)
  rw [← month] at days
  unfold Date.ordinal
  omega

theorem ofOrdinal_inj {n m : Nat} (hn : 1 ≤ n) (hm : 1 ≤ m) (h : ofOrdinal n = ofOrdinal m) :
    n = m := by
  rw [← ofOrdinal_ordinal hn, h, ofOrdinal_ordinal hm]

/-! ## Texts -/

theorem ofDigitChars_zeros (k : Nat) (digits : List Char) :
    Nat.ofDigitChars 10 (List.replicate k '0' ++ digits) 0 = Nat.ofDigitChars 10 digits 0 := by
  induction k with
  | zero => rfl
  | succ k ih => exact ih

theorem padded_cancel {w n m : Nat} {s t : List Char} (hs : Stops Char.isDigit s) (ht : Stops Char.isDigit t)
    (h : (padded w n).toList ++ s = (padded w m).toList ++ t) : n = m ∧ s = t := by
  have form : ∀ n, (padded w n).toList =
      List.replicate (w - (toString n).length) '0' ++ Nat.toDigits 10 n := by
    intro n
    simp [padded]
  have digits : ∀ n, ∀ c ∈ (padded w n).toList, c.isDigit = true := by
    intro n c hc
    rw [form, List.mem_append] at hc
    rcases hc with zero | digit
    · rw [List.eq_of_mem_replicate zero]
      rfl
    · exact Nat.isDigit_of_mem_toDigits (by decide) (Nat.le_refl 10) digit
  obtain ⟨same, rest⟩ := run_cancel (digits n) (digits m) hs ht h
  have value : ∀ n, Nat.ofDigitChars 10 (padded w n).toList 0 = n := by
    intro n
    rw [form, ofDigitChars_zeros, Nat.ofDigitChars_ten_toDigits]
  exact ⟨by rw [← value n, same, value m], rest⟩

theorem toList_isoText (micros : Nat) : (isoText micros).toList =
    (padded 4 (ofOrdinal (micros / microsPerDay + 1)).year).toList ++ '-' ::
    ((padded 2 (ofOrdinal (micros / microsPerDay + 1)).month).toList ++ '-' ::
    ((padded 2 (ofOrdinal (micros / microsPerDay + 1)).day).toList ++ 'T' ::
    ((padded 2 (micros % microsPerDay / microsPerSecond / 3600)).toList ++ ':' ::
    ((padded 2 (micros % microsPerDay / microsPerSecond / 60 % 60)).toList ++ ':' ::
    ((padded 2 (micros % microsPerDay / microsPerSecond % 60)).toList ++ ['Z']))))) := by
  simp [isoText]

/-- Two instants have one text exactly when they are of one second. -/
theorem isoText_eq {a b : Nat} :
    isoText a = isoText b ↔ a / microsPerSecond = b / microsPerSecond := by
  constructor
  · intro h
    have peel : ∀ {w n m : Nat} {c : Char} {s t : List Char}, c.isDigit = false →
        (padded w n).toList ++ c :: s = (padded w m).toList ++ c :: t → n = m ∧ s = t := by
      intro w n m c s t other eq
      obtain ⟨same, rest⟩ := padded_cancel (stops_cons other) (stops_cons other) eq
      exact ⟨same, (List.cons.inj rest).2⟩
    have h := congrArg String.toList h
    rw [toList_isoText, toList_isoText] at h
    obtain ⟨year, h⟩ := peel rfl h
    obtain ⟨month, h⟩ := peel rfl h
    obtain ⟨day, h⟩ := peel rfl h
    obtain ⟨hour, h⟩ := peel rfl h
    obtain ⟨minute, h⟩ := peel rfl h
    obtain ⟨second, -⟩ := peel rfl h
    have ext : ∀ {d e : Date}, d.year = e.year → d.month = e.month → d.day = e.day → d = e := by
      rintro ⟨⟩ ⟨⟩ rfl rfl rfl
      rfl
    have days := ofOrdinal_inj (Nat.le_add_left 1 _) (Nat.le_add_left 1 _) (ext year month day)
    have seconds : ∀ {n m : Nat}, n / 3600 = m / 3600 → n / 60 % 60 = m / 60 % 60 → n % 60 = m % 60 →
        n = m := by
      omega
    have seconds := seconds hour minute second
    unfold microsPerDay microsPerSecond at days seconds
    unfold microsPerSecond
    omega
  · intro h
    have days : a / microsPerDay = b / microsPerDay := by
      unfold microsPerDay microsPerSecond at *
      omega
    have seconds : a % microsPerDay / microsPerSecond = b % microsPerDay / microsPerSecond := by
      unfold microsPerDay microsPerSecond at *
      omega
    unfold isoText
    rw [days, seconds]

end ProxyLoop.Time
