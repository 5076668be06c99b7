import JourneyPlanner.Clock.Time
import JourneyPlanner.Proofs.Text.Numeral

/-!
# Times and their texts

Different times are written differently, negative ones included, and neither times nor lengths of
time are written with blanks.

* `clockDigits_injective`: the digits of hours, minutes and seconds tell the seconds.
* `Time.eq_of_format`: a text is that of one time.
* `Time.not_mem_of_format`, `Span.not_mem_of_format`: blanks do not occur.
-/

namespace JourneyPlanner

open Text (padded padded_injective not_mem_padded not_mem_digits append_mark_inj)

theorem magnitude_eq_ok {x y : Int} (h : magnitude x = .ok y) : y.toNat = x.natAbs := by
  obtain ⟨-, rfl⟩ := word_eq_ok.mp h
  exact Int.toNat_natCast _

theorem clockDigits_injective : Function.Injective clockDigits := by
  intro m n h
  have hcolon : ∀ n, ':' ∉ padded n := fun n => not_mem_padded rfl
  simp only [clockDigits, List.append_assoc, List.cons_append] at h
  obtain ⟨hhours, h⟩ := append_mark_inj (hcolon _) (hcolon _) h
  obtain ⟨hminutes, hseconds⟩ := append_mark_inj (hcolon _) (hcolon _) h
  have := padded_injective hhours
  have := padded_injective hminutes
  have := padded_injective hseconds
  omega

theorem not_mem_clockDigits {c : Char} {n : Nat} (h : Text.digitValue? c = none) (hmark : c ≠ ':') :
    c ∉ clockDigits n := by
  simp [clockDigits, not_mem_padded h, hmark]

namespace Time

variable {time time' : Time} {text : String}

theorem format_eq_ok (h : format time = .ok text) :
    text.toList = signDigits time ++ clockDigits time.natAbs := by
  obtain ⟨seconds, hseconds, h⟩ := bind_eq_ok.mp h
  cases h
  rw [String.toList_ofList, magnitude_eq_ok hseconds]

/-- A time is known by its text. -/
theorem eq_of_format (h : format time = .ok text) (h' : format time' = .ok text) :
    time = time' := by
  have hsigned : ∀ time : Time, signDigits time ++ clockDigits time.natAbs =
      if time < 0 then '-' :: clockDigits time.natAbs else clockDigits time.natAbs := by
    intro time
    unfold signDigits
    split <;> rfl
  have heq := (format_eq_ok h).symm.trans (format_eq_ok h')
  rw [hsigned, hsigned] at heq
  exact Text.signed_injective clockDigits_injective
    (fun _ => not_mem_clockDigits rfl (by decide)) heq

theorem not_mem_of_format (h : format time = .ok text) : ' ' ∉ text.toList := by
  rw [format_eq_ok h, signDigits, List.mem_append, not_or]
  constructor
  · split <;> simp
  · exact not_mem_clockDigits rfl (by decide)

end Time

/-- Blanks do not occur in lengths of time. -/
theorem not_mem_spanDigits {n : Nat} : ' ' ∉ spanDigits n := by
  have hdigits : ∀ n, ' ' ∉ Text.digits n := fun n => not_mem_digits rfl
  have hite : ∀ {c : Prop} [Decidable c] {cs ds : List Char}, ' ' ∉ cs → ' ' ∉ ds →
      ' ' ∉ if c then cs else ds := by
    intro c _ cs ds hcs hds
    split
    · exact hcs
    · exact hds
  have hpart : ∀ n mark, mark ≠ ' ' → ' ' ∉ (if n = 0 then [] else Text.digits n ++ [mark]) :=
    fun n mark hmark => hite (by simp) (by simp [hdigits, hmark.symm])
  have hboth : ' ' ∉ (if n / 3600 = 0 then [] else Text.digits (n / 3600) ++ ['h']) ++
      (if n / 60 % 60 = 0 then [] else Text.digits (n / 60 % 60) ++ ['m']) := by
    rw [List.mem_append, not_or]
    exact ⟨hpart _ 'h' (by decide), hpart _ 'm' (by decide)⟩
  apply hite hboth
  rw [List.mem_append, List.mem_append, not_or, not_or]
  exact ⟨⟨hboth, hdigits _⟩, by simp⟩

theorem Span.not_mem_of_format {span : Span} {text : String} (h : Span.format span = .ok text) :
    ' ' ∉ text.toList := by
  obtain ⟨seconds, -, h⟩ := bind_eq_ok.mp h
  cases h
  rw [String.toList_ofList]
  exact not_mem_spanDigits

end JourneyPlanner
