import JourneyPlanner.Settings.Basic
import JourneyPlanner.Proofs.Clock.Reading
import JourneyPlanner.Proofs.Clock.Time

/-!
# Clock texts that are written and read

The texts of times and durations show their hours, minutes and seconds, so what is read from them is
the number of seconds that was written, unless it does not fit a signed word.

* `ShowsClock.readClock_parts`: what is read from the hours, minutes and seconds of a number.
* `Time.parse_format`: the times that are written, in both forms, are read back, and different times
  are written differently.
* `Settings.Kind.ofJson_toJson_duration`: a duration in settings is read back if and only if a
  signed word holds its seconds.
-/

namespace JourneyPlanner

variable {n : Nat} {required : Bool}

/-! ### Digits of hours, minutes and seconds -/

theorem showsClock_clockDigits :
    ShowsClock required (String.ofList (clockDigits n)) (n / 3600) (n / 60 % 60) (n % 60) := by
  refine .full ⟨[], [Text.padded (n / 3600), Text.padded (n / 60 % 60), Text.padded (n % 60)], [],
    nofun, nofun, ?_, ?_⟩
  · simp [clockDigits, List.intercalate_cons_cons]
  · exact .cons (.plain Text.isNumeral_padded) (.cons (.plain Text.isNumeral_padded)
      (.cons (.plain Text.isNumeral_padded) .nil))

theorem showsClock_clockDigitsShort :
    ShowsClock false (String.ofList (clockDigitsShort n)) (n / 3600) (n / 60 % 60) 0 := by
  refine .short rfl ⟨[], [Text.padded (n / 3600), Text.padded (n / 60 % 60)], [],
    nofun, nofun, ?_, ?_⟩
  · simp [clockDigitsShort, List.intercalate_cons_cons]
  · exact .cons (.plain Text.isNumeral_padded) (.cons (.plain Text.isNumeral_padded) .nil)

/-- A number of seconds of 32 bits is read from its hours, minutes and seconds, if a signed word
holds it. -/
theorem ShowsClock.readClock_parts {text : String}
    (hshows : ShowsClock required text (n / 3600) (n / 60 % 60) (n % 60)) (hn : n < 4294967296) :
    readClock required text =
      if n ≤ greatestWord then .ok (n : Int) else .error .overflow := by
  have hnarrow : ∀ part ∈ [n / 3600, n / 60 % 60, n % 60], part < 2147483648 := by
    intro part hpart
    simp only [List.mem_cons, List.not_mem_nil, or_false] at hpart
    omega
  have hsum : 3600 * (n / 3600) + 60 * (n / 60 % 60) + n % 60 = n := by omega
  rw [hshows.readClock_eq hnarrow, hsum,
    if_pos ⟨Nat.mod_lt _ (by decide), Nat.mod_lt _ (by decide)⟩]

theorem readClock_clockDigits (hn : n < 4294967296) :
    readClock required (String.ofList (clockDigits n)) =
      if n ≤ greatestWord then .ok (n : Int) else .error .overflow :=
  showsClock_clockDigits.readClock_parts hn

/-- Without seconds they may be left out. -/
theorem readClock_clockDigitsShort (hn : n < 4294967296) (hseconds : n % 60 = 0) :
    readClock false (String.ofList (clockDigitsShort n)) =
      if n ≤ greatestWord then .ok (n : Int) else .error .overflow := by
  refine ShowsClock.readClock_parts ?_ hn
  rw [hseconds]
  exact showsClock_clockDigitsShort

/-! ### Times -/

/-- Every word but the least one has a size. -/
theorem magnitude_eq {x : Int} (hword : IsWord x) (hne : x ≠ leastWord) :
    magnitude x = .ok x.natAbs := by
  simp only [IsWord, leastWord, greatestWord] at hword hne
  exact word_of_isWord ⟨by simp only [leastWord]; omega, by simp only [greatestWord]; omega⟩

namespace Time

/-- Every time but the least word is written. -/
theorem format_eq {t : Time} (hword : IsWord t) (hne : t ≠ leastWord) :
    format t = .ok (String.ofList (signDigits t ++ clockDigits t.natAbs)) := by
  rw [format, magnitude_eq hword hne]
  rfl

theorem formatShort_eq {t : Time} (hword : IsWord t) (hne : t ≠ leastWord) :
    formatShort t = .ok (String.ofList (signDigits t ++
      if t.natAbs % 60 = 0 then clockDigitsShort t.natAbs else clockDigits t.natAbs)) := by
  rw [formatShort, magnitude_eq hword hne]
  rfl

/-- A time that is not negative is read back from both of its texts. Every time but the least word
has a text, which is that of no other time. -/
theorem parse_format :
    (∀ t : Time, 0 ≤ t → t ≤ greatestWord →
      (∃ text, format t = .ok text ∧ parse text = .ok t) ∧
        ∃ text, formatShort t = .ok text ∧ parse text = .ok t) ∧
    ∀ t : Time, IsWord t → t ≠ leastWord →
      ∃ text, format t = .ok text ∧ ∀ t', format t' = .ok text → t' = t := by
  constructor
  · intro t hnonneg hle
    obtain ⟨n, rfl⟩ := Int.eq_ofNat_of_zero_le hnonneg
    have hleast : leastWord < 0 := by decide
    have hword : IsWord n := ⟨hleast.le.trans hnonneg, hle⟩
    have hne : (n : Int) ≠ leastWord := (hleast.trans_le hnonneg).ne'
    have hbits : n < 4294967296 := by
      have hlast : (n : Int) ≤ 2147483647 := hle
      omega
    have hsign : signDigits n = [] := if_neg (not_lt.mpr hnonneg)
    have hlong : parse (String.ofList (clockDigits n)) = .ok n := by
      rw [parse, readClock_clockDigits hbits, if_pos hle]
    refine ⟨⟨_, format_eq hword hne, ?_⟩, _, formatShort_eq hword hne, ?_⟩
    · rw [hsign, List.nil_append, Int.natAbs_natCast, hlong]
    · rw [hsign, List.nil_append, Int.natAbs_natCast]
      by_cases hseconds : n % 60 = 0
      · rw [if_pos hseconds, parse, readClock_clockDigitsShort hbits hseconds, if_pos hle]
      · rw [if_neg hseconds, hlong]
  · intro t hword hne
    have htext := format_eq hword hne
    exact ⟨_, htext, fun t' ht' => eq_of_format ht' htext⟩

/-- The greatest time, an hour without seconds, and a negative time. -/
theorem parse_format_lastWord :
    (Time.format 2147483647 = .ok "596523:14:07" ∧ parse "596523:14:07" = .ok 2147483647) ∧
    (Time.formatShort 36000 = .ok "10:00" ∧ parse "10:00" = .ok 36000) ∧
    (Time.format (-60) = .ok "-00:01:00" ∧
      ∀ t', Time.format t' = .ok "-00:01:00" → t' = -60) := by
  have hlast : Time.format 2147483647 = .ok "596523:14:07" := by decide +kernel
  have hhour : Time.formatShort 36000 = .ok "10:00" := by decide +kernel
  have hminute : Time.format (-60) = .ok "-00:01:00" := by decide +kernel
  obtain ⟨⟨text, htext, hread⟩, -⟩ := parse_format.1 2147483647 (by decide) (by decide)
  obtain ⟨-, short, hshort, hreadShort⟩ := parse_format.1 36000 (by decide) (by decide)
  obtain ⟨negative, hnegative, hunique⟩ := parse_format.2 (-60) (by decide) (by decide)
  rw [hlast, Except.ok.injEq] at htext
  rw [hhour, Except.ok.injEq] at hshort
  rw [hminute, Except.ok.injEq] at hnegative
  subst htext hshort hnegative
  exact ⟨⟨hlast, hread⟩, ⟨hhour, hreadShort⟩, hminute, hunique⟩

end Time

/-! ### Durations -/

namespace Settings.Kind

/-- A duration is read back from its text, and from its value in settings, if and only if a signed
word holds its seconds. With more seconds the reading overflows. -/
theorem ofJson_toJson_duration (d : Duration) :
    Duration.parse d.toText =
        (if d.seconds.toNat ≤ greatestWord then .ok d else .error .overflow) ∧
      duration.ofJson (duration.toJson d) =
        if d.seconds.toNat ≤ greatestWord then .ok d else .error .overflow := by
  have hparse : Duration.parse d.toText =
      if d.seconds.toNat ≤ greatestWord then .ok d else .error .overflow := by
    rw [Duration.parse, Duration.toText, readClock_clockDigits d.seconds.toNat_lt]
    by_cases hle : d.seconds.toNat ≤ greatestWord
    · have hsame : UInt32.ofInt d.seconds.toNat = d.seconds :=
        UInt32.toNat_inj.mp (toNat_ofInt_of_le hle)
      rw [if_pos hle, if_pos hle, Except.map, hsame]
    · rw [if_neg hle, if_neg hle, Except.map]
  have hread : duration.ofJson (duration.toJson d) = readDuration d.toText := by
    simp only [duration, Json.string?, ReadError.ofOption, bind, Except.bind]
  refine ⟨hparse, ?_⟩
  rw [hread, readDuration, hparse]
  by_cases hle : d.seconds.toNat ≤ greatestWord
  · rw [if_pos hle, if_pos hle, Except.mapError]
  · rw [if_neg hle, if_neg hle, Except.mapError]

end Settings.Kind

end JourneyPlanner
