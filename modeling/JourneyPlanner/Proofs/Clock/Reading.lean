import JourneyPlanner.Clock.Duration
import JourneyPlanner.Proofs.Checked
import JourneyPlanner.Proofs.Text.Fields

/-!
# Clock texts that are read

A clock text shows two or three unsigned numerals with colons between them and blanks around
them. What is read from it is the number of seconds of these hours, minutes and seconds, as long as
none of the numbers has the sign bit of a word: a numeral is taken as the signed word with its
bits, and only then compared with sixty.

* `ShowsClock`: the hours, minutes and seconds of a text.
* `Totals`, `TotalsInWords`: the seconds of them, with the numbers as they are or as signed words.
* `ShowsClock.readClock_eq`: what is read from a text that shows them.
* `parse_exact`: which texts are times and durations, and of how many seconds.
-/

namespace JourneyPlanner

open Text (IsUnsigned isBlank)

variable {text : String} {numbers : List Nat} {h m s n : Nat} {required : Bool}

/-! ### Texts that show numbers -/

/-- Unsigned numerals of the numbers, with colons between them and blanks around them. -/
def ShowsNumbers (text : String) (numbers : List Nat) : Prop :=
  ∃ front fields back, (∀ c ∈ front, isBlank c = true) ∧ (∀ c ∈ back, isBlank c = true) ∧
    text.toList = front ++ [':'].intercalate fields ++ back ∧
    List.Forall₂ IsUnsigned fields numbers

/-- The hours, the minutes and the seconds of a text. The seconds may be left out unless they are
required. -/
inductive ShowsClock (required : Bool) (text : String) : Nat → Nat → Nat → Prop
  | full {h m s : Nat} (shows : ShowsNumbers text [h, m, s]) : ShowsClock required text h m s
  | short {h m : Nat} (hrequired : required = false) (shows : ShowsNumbers text [h, m]) :
    ShowsClock required text h m 0

/-- The characters of unsigned numerals are neither blanks nor colons. -/
theorem plain_of_isUnsigned {field : List Char} {c : Char} (hfield : IsUnsigned field n)
    (hc : c ∈ field) : isBlank c = false ∧ c ≠ ':' := by
  rcases hfield.mem hc with hdigit | rfl
  · obtain ⟨hlow, hhigh⟩ := Text.isDigit_iff.mp hdigit
    refine ⟨by simp [isBlank]; omega, ?_⟩
    rintro rfl
    exact absurd hhigh (by decide)
  · decide

/-- The numerals of a text are its fields after trimming. -/
theorem showsNumbers_iff (hne : numbers ≠ []) : ShowsNumbers text numbers ↔
    List.Forall₂ IsUnsigned (Text.split ':' (Text.trim text.toList)) numbers := by
  constructor
  · rintro ⟨front, fields, back, hfront, hback, htext, hfields⟩
    obtain ⟨hplain, -⟩ := (List.forall₂_and_left fields numbers).mp
      (hfields.imp fun field n h => ⟨fun c hc => plain_of_isUnsigned h hc, h⟩)
    have htrim : Text.trim text.toList = [':'].intercalate fields := by
      rw [htext]
      refine Text.trim_append hfront hback fun c hc => ?_
      rcases Text.mem_intercalate hc with rfl | ⟨field, hfield, hc⟩
      · decide
      · exact (hplain field hfield c hc).1
    have hfields_ne : fields ≠ [] := by
      rintro rfl
      exact hne (List.forall₂_nil_left_iff.mp hfields)
    rw [htrim, Text.split_intercalate hfields_ne fun field hfield hc =>
      (hplain field hfield ':' hc).2 rfl]
    exact hfields
  · intro hfields
    obtain ⟨front, back, hfront, hback, htext⟩ := Text.exists_trim text.toList
    exact ⟨front, _, back, hfront, hback, by rw [Text.intercalate_split, ← htext], hfields⟩

/-- The numbers that a text shows are known by it. -/
theorem ShowsNumbers.unique {numbers' : List Nat} (h : ShowsNumbers text numbers)
    (h' : ShowsNumbers text numbers') (hne : numbers ≠ []) (hne' : numbers' ≠ []) :
    numbers = numbers' := by
  have hunique : Relator.RightUnique IsUnsigned := fun _ _ _ => IsUnsigned.unique
  exact List.right_unique_forall₂' hunique ((showsNumbers_iff hne).mp h)
    ((showsNumbers_iff hne').mp h')

/-! ### What is read -/

theorem readClockField_eq_some_iff {field : List Char} {x : Int} :
    readClockField field = some x ↔
      ∃ n, (IsUnsigned field n ∧ n ≤ 4294967295) ∧ wrapWord n = x := by
  simp only [readClockField, Option.map_eq_some_iff, Option.bind_eq_bind, Option.bind_eq_some_iff,
    Option.pure_def, Option.some.injEq, Text.readNat_eq_some_iff]
  constructor
  · rintro ⟨_, ⟨n, hn, rfl⟩, rfl⟩
    exact ⟨n, hn, rfl⟩
  · rintro ⟨n, hn, rfl⟩
    exact ⟨n, ⟨n, hn, rfl⟩, rfl⟩

/-- The numbers of fields that are read: numerals of 32 bits, each taken as a signed word. -/
theorem mapM_readClockField_eq_some_iff {fields : List (List Char)} {words : List Int} :
    fields.mapM readClockField = some words ↔
      ∃ numbers : List Nat, List.Forall₂ IsUnsigned fields numbers ∧
        (∀ n ∈ numbers, n ≤ 4294967295) ∧ numbers.map (fun n : Nat => wrapWord n) = words := by
  induction fields generalizing words with
  | nil =>
    rw [List.mapM_nil, Option.pure_def, Option.some.injEq]
    constructor
    · rintro rfl
      exact ⟨[], .nil, nofun, rfl⟩
    · rintro ⟨numbers, hnumbers, -, rfl⟩
      rw [List.forall₂_nil_left_iff.mp hnumbers, List.map_nil]
  | cons field fields ih =>
    simp only [List.mapM_cons, Option.bind_eq_bind, Option.bind_eq_some_iff, Option.pure_def,
      Option.some.injEq]
    constructor
    · rintro ⟨x, hx, rest, hrest, rfl⟩
      obtain ⟨n, ⟨hn, hle⟩, rfl⟩ := readClockField_eq_some_iff.mp hx
      obtain ⟨numbers, hnumbers, hall, rfl⟩ := ih.mp hrest
      exact ⟨n :: numbers, .cons hn hnumbers, List.forall_mem_cons.mpr ⟨hle, hall⟩, rfl⟩
    · rintro ⟨numbers, hnumbers, hall, rfl⟩
      obtain ⟨n, rest, hn, hrest, rfl⟩ := List.forall₂_cons_left_iff.mp hnumbers
      obtain ⟨hle, hall⟩ := List.forall_mem_cons.mp hall
      exact ⟨wrapWord n, readClockField_eq_some_iff.mpr ⟨n, ⟨hn, hle⟩, rfl⟩, _,
        ih.mpr ⟨rest, hrest, hall, rfl⟩, rfl⟩

/-- The fields of a clock text are read if and only if it shows numbers of 32 bits. -/
theorem readClockFields_eq_some_iff {words : Int × Int × Int} :
    readClockFields required text = some words ↔
      ∃ h m s, ShowsClock required text h m s ∧ (∀ n ∈ [h, m, s], n ≤ 4294967295) ∧
        (wrapWord h, wrapWord m, wrapWord s) = words := by
  unfold readClockFields
  rw [Option.bind_eq_bind, Option.bind_eq_some_iff]
  constructor
  · rintro ⟨fields, hfields, hwords⟩
    obtain ⟨numbers, hnumbers, hall, rfl⟩ := mapM_readClockField_eq_some_iff.mp hfields
    match numbers with
    | [] | [_] | _ :: _ :: _ :: _ :: _ => exact nomatch hwords
    | [h, m] =>
      obtain ⟨hrequired, rfl⟩ : required = false ∧ (wrapWord h, wrapWord m, 0) = words := by
        simpa using hwords
      exact ⟨h, m, 0, .short hrequired ((showsNumbers_iff (by simp)).mpr hnumbers),
        by simpa using hall, rfl⟩
    | [h, m, s] =>
      exact ⟨h, m, s, .full ((showsNumbers_iff (by simp)).mpr hnumbers), hall,
        Option.some.inj hwords⟩
  · rintro ⟨h, m, s, hshows, hall, rfl⟩
    cases hshows with
    | full shows =>
      have hnumbers := (showsNumbers_iff (by simp)).mp shows
      exact ⟨_, mapM_readClockField_eq_some_iff.mpr ⟨_, hnumbers, hall, rfl⟩, rfl⟩
    | short hrequired shows =>
      have hnumbers := (showsNumbers_iff (by simp)).mp shows
      refine ⟨_, mapM_readClockField_eq_some_iff.mpr ⟨_, hnumbers, by simpa using hall, rfl⟩, ?_⟩
      subst hrequired
      rfl

/-- A number without the sign bit is the word with its bits. -/
theorem wrapWord_of_lt (hn : n < 2147483648) : wrapWord n = n := by
  rw [wrapWord, Int.bmod_eq_of_le] <;> omega

theorem yields_clockSeconds (h m s : Int) :
    Yields (clockSeconds h m s) fun total => total = h * 3600 + m * 60 + s ∧ IsWord total := by
  refine (yields_word _).bind fun hours _ ⟨hhours, _⟩ => ?_
  refine (yields_word _).bind fun minutes _ ⟨hminutes, _⟩ => ?_
  refine (yields_word _).bind fun both _ ⟨hboth, _⟩ => ?_
  refine (yields_word _).mono fun total _ ⟨htotal, hword⟩ => ?_
  subst hhours hminutes hboth htotal
  exact ⟨rfl, hword⟩

/-- Only the sum of hours, minutes and seconds can leave the words: its parts are not greater. -/
theorem clockSeconds_eq (hm : m < 60) (hs : s < 60) :
    clockSeconds h m s = word (3600 * h + 60 * m + s : Nat) := by
  have hsum : (h * 3600 + m * 60 + s : Int) = (3600 * h + 60 * m + s : Nat) := by omega
  have hyields := yields_clockSeconds h m s
  rw [hsum] at hyields
  by_cases hword : IsWord (3600 * h + 60 * m + s : Nat)
  · have hpart : ∀ x : Int, 0 ≤ x → x ≤ (3600 * h + 60 * m + s : Nat) → IsWord x :=
      fun x hnonneg hle => ⟨(by decide : leastWord ≤ 0).trans hnonneg, hle.trans hword.2⟩
    have hhours := hpart (h * 3600) (by omega) (by omega)
    have hminutes := hpart (m * 60) (by omega) (by omega)
    have hboth := hpart (h * 3600 + m * 60) (by omega) (by omega)
    simp only [clockSeconds, word_of_isWord hhours, word_of_isWord hminutes, bind, Except.bind,
      word_of_isWord hboth, hsum]
  · rw [word, if_neg hword]
    cases hseconds : clockSeconds h m s with
    | error fault => rw [hyields.of_error hseconds]
    | ok total =>
      obtain ⟨rfl, htotal⟩ := hyields.of_ok hseconds
      exact absurd htotal hword

/-- What is read from a text that shows numbers without sign bits. -/
theorem ShowsClock.readClock_eq (hshows : ShowsClock required text h m s)
    (hnarrow : ∀ n ∈ [h, m, s], n < 2147483648) :
    readClock required text =
      if m < 60 ∧ s < 60 then
        if (3600 * h + 60 * m + s : Nat) ≤ greatestWord then
          .ok ((3600 * h + 60 * m + s : Nat) : Int)
        else .error .overflow
      else .error (.malformed text) := by
  have hfields : readClockFields required text = some ((h : Int), (m : Int), (s : Int)) := by
    refine readClockFields_eq_some_iff.mpr ⟨h, m, s, hshows, fun n hn => ?_, ?_⟩
    · have := hnarrow n hn
      omega
    · rw [wrapWord_of_lt (hnarrow h (by simp)), wrapWord_of_lt (hnarrow m (by simp)),
        wrapWord_of_lt (hnarrow s (by simp))]
  rw [readClock, hfields]
  by_cases hclock : m < 60 ∧ s < 60
  · have hcast : (m : Int) < 60 ∧ (s : Int) < 60 := by omega
    simp only [if_pos hclock, if_pos hcast, clockSeconds_eq hclock.1 hclock.2]
    by_cases htotal : (3600 * h + 60 * m + s : Nat) ≤ greatestWord
    · have hword : IsWord (3600 * h + 60 * m + s : Nat) := ⟨by simp [leastWord]; omega, htotal⟩
      rw [word_of_isWord hword, if_pos htotal]
    · have hword : ¬IsWord (3600 * h + 60 * m + s : Nat) := fun hword => htotal hword.2
      rw [word, if_neg hword, if_neg htotal]
  · have hcast : ¬((m : Int) < 60 ∧ (s : Int) < 60) := by omega
    simp only [if_neg hclock, if_neg hcast]

/-! ### Which texts are times and durations -/

/-- A text totals a number of seconds: those of the hours, minutes and seconds that it shows, the
hours being of at most 32 bits, the minutes and the seconds below sixty. -/
def Totals (required : Bool) (text : String) (total : Nat) : Prop :=
  ∃ h m s, ShowsClock required text h m s ∧ h ≤ 4294967295 ∧ m < 60 ∧ s < 60 ∧
    3600 * h + 60 * m + s = total

/-- A text totals a number of seconds in words: those of the signed words with the bits of the
numbers that it shows, the words of the minutes and of the seconds being below sixty. -/
def TotalsInWords (required : Bool) (text : String) (total : Int) : Prop :=
  ∃ h m s, ShowsClock required text h m s ∧ (∀ n ∈ [h, m, s], n ≤ 4294967295) ∧
    wrapWord m < 60 ∧ wrapWord s < 60 ∧ 3600 * wrapWord h + 60 * wrapWord m + wrapWord s = total

/-- A number that a text shows has no sign bit, unless it has more than 32 bits and is not read. -/
def SignFree (required : Bool) (text : String) : Prop :=
  ∀ h m s, ShowsClock required text h m s →
    ∀ n ∈ [h, m, s], n < 2147483648 ∨ 4294967296 ≤ n

theorem SignFree.narrow (hfree : SignFree required text) (hshows : ShowsClock required text h m s)
    (hle : ∀ n ∈ [h, m, s], n ≤ 4294967295) : ∀ n ∈ [h, m, s], n < 2147483648 := by
  intro n hn
  have hread := hle n hn
  exact (hfree h m s hshows n hn).resolve_right (by omega)

theorem totalsInWords_of_readClock {t : Int} (h : readClock required text = .ok t) :
    TotalsInWords required text t ∧ IsWord t := by
  cases hfields : readClockFields required text with
  | none =>
    rw [readClock, hfields] at h
    exact nomatch h
  | some words =>
    obtain ⟨h', m, s, hshows, hle, rfl⟩ := readClockFields_eq_some_iff.mp hfields
    rw [readClock, hfields] at h
    dsimp only at h
    by_cases hclock : wrapWord m < 60 ∧ wrapWord s < 60
    · rw [if_pos hclock] at h
      cases hseconds : clockSeconds (wrapWord h') (wrapWord m) (wrapWord s) with
      | error fault =>
        rw [hseconds] at h
        exact nomatch h
      | ok total =>
        rw [hseconds, Except.ok.injEq] at h
        obtain ⟨hsum, hword⟩ := (yields_clockSeconds _ _ _).of_ok hseconds
        subst h
        exact ⟨⟨h', m, s, hshows, hle, hclock.1, hclock.2, by omega⟩, hword⟩
    · rw [if_neg hclock] at h
      exact nomatch h

theorem SignFree.readClock_eq (hfree : SignFree required text) {total : Nat}
    (h : Totals required text total) :
    readClock required text =
      if total ≤ greatestWord then .ok (total : Int) else .error .overflow := by
  obtain ⟨h, m, s, hshows, hle, hm, hs, rfl⟩ := h
  have hbits : ∀ n ∈ [h, m, s], n ≤ 4294967295 := by
    simp only [List.forall_mem_cons]
    exact ⟨hle, by omega, by omega, nofun⟩
  rw [hshows.readClock_eq (hfree.narrow hshows hbits), if_pos ⟨hm, hs⟩]

theorem SignFree.readClock_malformed (hfree : SignFree required text)
    (h : ∀ total, ¬Totals required text total) :
    readClock required text = .error (.malformed text) := by
  cases hfields : readClockFields required text with
  | none => rw [readClock, hfields]
  | some words =>
    obtain ⟨h', m, s, hshows, hle, -⟩ := readClockFields_eq_some_iff.mp hfields
    rw [hshows.readClock_eq (hfree.narrow hshows hle), if_neg]
    rintro ⟨hm, hs⟩
    exact h _ ⟨h', m, s, hshows, hle h' List.mem_cons_self, hm, hs, rfl⟩

/-- What is read from a text, or why nothing is, if no number of the text has the sign bit. -/
theorem SignFree.readClock_iff (hfree : SignFree required text) :
    (∀ t, readClock required text = .ok t ↔
      ∃ total : Nat, Totals required text total ∧ total ≤ greatestWord ∧ total = t) ∧
    (readClock required text = .error .overflow ↔
      ∃ total : Nat, Totals required text total ∧ greatestWord < total) ∧
    (readClock required text = .error (.malformed text) ↔
      ∀ total, ¬Totals required text total) := by
  have hsome : ∀ outcome, readClock required text = outcome → outcome ≠ .error (.malformed text) →
      ∃ total, Totals required text total := by
    rintro outcome rfl hne
    by_contra hnone
    exact hne (hfree.readClock_malformed (not_exists.mp hnone))
  refine ⟨fun t => ⟨fun hread => ?_, ?_⟩, ⟨fun hread => ?_, ?_⟩,
    ⟨fun hread total htotal => ?_, hfree.readClock_malformed⟩⟩
  · obtain ⟨total, htotal⟩ := hsome _ hread nofun
    rw [hfree.readClock_eq htotal] at hread
    by_cases hle : total ≤ greatestWord
    · rw [if_pos hle, Except.ok.injEq] at hread
      exact ⟨total, htotal, hle, hread⟩
    · rw [if_neg hle] at hread
      exact nomatch hread
  · rintro ⟨total, htotal, hle, rfl⟩
    rw [hfree.readClock_eq htotal, if_pos hle]
  · obtain ⟨total, htotal⟩ := hsome _ hread nofun
    rw [hfree.readClock_eq htotal] at hread
    by_cases hle : total ≤ greatestWord
    · rw [if_pos hle] at hread
      exact nomatch hread
    · exact ⟨total, htotal, not_le.mp hle⟩
  · rintro ⟨total, htotal, hlt⟩
    rw [hfree.readClock_eq htotal, if_neg (not_le.mpr hlt)]
  · rw [hfree.readClock_eq htotal] at hread
    split at hread <;> exact nomatch hread

/-- A text that shows three numbers also does when the third may be left out. -/
theorem SignFree.weaken (hfree : SignFree false text) : SignFree true text := by
  intro h m s hshows
  cases hshows with
  | full shows => exact hfree h m s (.full shows)
  | short hrequired => exact nomatch hrequired

theorem Duration.parse_eq_ok_iff {d : Duration} :
    Duration.parse text = .ok d ↔ ∃ t, readClock true text = .ok t ∧ ⟨UInt32.ofInt t⟩ = d := by
  unfold Duration.parse
  cases readClock true text <;> simp [Except.map]

theorem Duration.parse_eq_error_iff {e : ClockError} :
    Duration.parse text = .error e ↔ readClock true text = .error e := by
  unfold Duration.parse
  cases readClock true text <;> simp [Except.map]

/-- The time of a duration with the bits of a word is this word. -/
theorem wrapWord_ofInt {t : Int} (ht : IsWord t) : wrapWord (UInt32.ofInt t).toNat = t := by
  simp only [IsWord, leastWord, greatestWord] at ht
  have hbits : ((UInt32.ofInt t).toNat : Int) = t % 4294967296 := by
    simp only [UInt32.ofInt, UInt32.toNat_ofNat']
    omega
  rw [hbits, wrapWord, show (4294967296 : Int) = (4294967296 : Nat) from rfl, Int.emod_bmod,
    Int.bmod_eq_of_le] <;> omega

/-- Seconds without the sign bit are kept as the seconds of a duration. -/
theorem toNat_ofInt_of_le (hn : n ≤ greatestWord) : (UInt32.ofInt n).toNat = n := by
  rw [greatestWord] at hn
  simp only [UInt32.ofInt, UInt32.toNat_ofNat']
  omega

/-- What is read as a duration from a text, or why nothing is, if no number has the sign bit. -/
theorem SignFree.durationParse_iff (hfree : SignFree true text) :
    (∀ d, Duration.parse text = .ok d ↔
      ∃ total : Nat, Totals true text total ∧ total ≤ greatestWord ∧ total = d.seconds.toNat) ∧
    (Duration.parse text = .error .overflow ↔
      ∃ total : Nat, Totals true text total ∧ greatestWord < total) ∧
    (Duration.parse text = .error (.malformed text) ↔
      ∀ total, ¬Totals true text total) := by
  obtain ⟨hok, hoverflow, hmalformed⟩ := hfree.readClock_iff
  refine ⟨fun d => ?_, ?_, ?_⟩
  · rw [Duration.parse_eq_ok_iff]
    constructor
    · rintro ⟨t, ht, rfl⟩
      obtain ⟨total, htotal, hle, rfl⟩ := (hok t).mp ht
      exact ⟨total, htotal, hle, (toNat_ofInt_of_le hle).symm⟩
    · rintro ⟨total, htotal, hle, hseconds⟩
      refine ⟨total, (hok total).mpr ⟨total, htotal, hle, rfl⟩, ?_⟩
      rw [Duration.mk.injEq, ← UInt32.toNat_inj, toNat_ofInt_of_le hle, hseconds]
  · rw [Duration.parse_eq_error_iff, hoverflow]
  · rw [Duration.parse_eq_error_iff, hmalformed]

/-- A text that is read as a time or as a duration totals its seconds in words. A text of which no
number has the sign bit is read as a time if and only if it totals a number of seconds that fits a
word, as this number. With more seconds it overflows, and every other text is malformed. It is read
as a duration in the same way when it shows three numbers, so that the time of the duration is not
negative. -/
theorem parse_exact (text : String) :
    (∀ t, Time.parse text = .ok t → TotalsInWords false text t) ∧
    (∀ d, Duration.parse text = .ok d → TotalsInWords true text d.toTime) ∧
    (SignFree false text →
      ((∀ t, Time.parse text = .ok t ↔
          ∃ total : Nat, Totals false text total ∧ total ≤ greatestWord ∧ total = t) ∧
        (Time.parse text = .error .overflow ↔
          ∃ total : Nat, Totals false text total ∧ greatestWord < total) ∧
        (Time.parse text = .error (.malformed text) ↔ ∀ total, ¬Totals false text total)) ∧
      ((∀ d, Duration.parse text = .ok d ↔
          ∃ total : Nat, Totals true text total ∧ total ≤ greatestWord ∧
            total = d.seconds.toNat) ∧
        (Duration.parse text = .error .overflow ↔
          ∃ total : Nat, Totals true text total ∧ greatestWord < total) ∧
        (Duration.parse text = .error (.malformed text) ↔ ∀ total, ¬Totals true text total)) ∧
      ∀ d, Duration.parse text = .ok d → 0 ≤ d.toTime ∧ d.toTime = d.seconds.toNat) := by
  refine ⟨fun t ht => (totalsInWords_of_readClock ht).1, fun d hd => ?_, fun hfree => ?_⟩
  · obtain ⟨t, ht, rfl⟩ := Duration.parse_eq_ok_iff.mp hd
    obtain ⟨htotals, hword⟩ := totalsInWords_of_readClock ht
    rwa [Duration.toTime, wrapWord_ofInt hword]
  · have hduration := hfree.weaken.durationParse_iff
    refine ⟨hfree.readClock_iff, hduration, fun d hd => ?_⟩
    obtain ⟨total, -, hle, hseconds⟩ := (hduration.1 d).mp hd
    rw [greatestWord] at hle
    have htime : d.toTime = d.seconds.toNat := wrapWord_of_lt (by omega)
    exact ⟨htime ▸ Int.natCast_nonneg _, htime⟩

/-- Blanks around a text and a plus sign in it are left out, and a duration needs its seconds. -/
theorem parse_exact_quarterPastTen :
    SignFree false " 10:+15\n" ∧ Time.parse " 10:+15\n" = .ok 36900 ∧
      Duration.parse " 10:+15\n" = .error (.malformed " 10:+15\n") := by
  have hshows : ShowsNumbers " 10:+15\n" [10, 15] := by
    refine ⟨[' '], [['1', '0'], ['+', '1', '5']], ['\n'], List.forall_mem_singleton.mpr rfl,
      List.forall_mem_singleton.mpr rfl, by decide, ?_⟩
    exact .cons (.plain ⟨by decide, by simp, by decide⟩)
      (.cons (.plus ⟨by decide, by simp, by decide⟩) .nil)
  have hthree : ∀ h m s, ¬ShowsNumbers " 10:+15\n" [h, m, s] := fun h m s hthree =>
    nomatch hthree.unique hshows (by simp) (by simp)
  have hfree : SignFree false " 10:+15\n" := by
    intro h m s hclock
    cases hclock with
    | full shows => exact absurd shows (hthree h m s)
    | short hrequired shows =>
      obtain ⟨rfl, rfl⟩ : h = 10 ∧ m = 15 := by
        simpa using shows.unique hshows (by simp) (by simp)
      decide
  obtain ⟨-, -, hexact⟩ := parse_exact " 10:+15\n"
  obtain ⟨⟨hok, -, -⟩, ⟨-, -, hmalformed⟩, -⟩ := hexact hfree
  refine ⟨hfree, (hok 36900).mpr ⟨36900, ⟨10, 15, 0, .short rfl hshows, ?_⟩, by decide, rfl⟩,
    hmalformed.mpr ?_⟩
  · decide
  · rintro total ⟨h, m, s, hclock, -⟩
    cases hclock with
    | full shows => exact hthree h m s shows
    | short hrequired => exact nomatch hrequired

/-- A number of minutes with the sign bit counts as a negative one. -/
example : Time.parse "00:4294967295" = .ok (-60) := by
  decide +kernel

end JourneyPlanner
