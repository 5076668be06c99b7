import Mathlib.Data.Int.Lemmas
import JourneyPlanner.Text.Numeral

/-!
# Numerals and their numbers

A numeral is written from the number, and the number can be read from it, so different numbers have
different numerals, with or without a leading zero. Numerals consist of digits alone, so that a mark
between two of them tells where one ends.

* `value?_digits`, `value?_padded`: the number of a numeral.
* `digits_injective`, `padded_injective`: numerals of different numbers differ.
* `signedDigits_injective`: so do those of whole numbers.
* `toList_toString_nat`, `toList_toString_int`: numbers are shown by their numerals.
* `not_mem_digits`, `not_mem_padded`: other characters do not occur.
* `append_mark_inj`, `append_lastMark_inj`: a mark tells where the text before it, or after it,
  ends.
-/

namespace JourneyPlanner.Text

variable {n value : Nat} {c : Char} {cs ds front front' back back' : List Char}

theorem digitValue?_digitChar {d : Nat} (h : d < 10) : digitValue? (digitChar d) = some d := by
  have hall : ∀ d < 10, digitValue? (digitChar d) = some d := by decide
  exact hall d h

theorem digits_ne_nil : digits n ≠ [] := by
  rw [digits]
  split <;> simp

theorem valueFrom_append : valueFrom value (cs ++ ds) =
    (valueFrom value cs).bind fun value => valueFrom value ds := by
  induction cs generalizing value with
  | nil => rfl
  | cons c cs ih =>
    rw [List.cons_append, valueFrom, valueFrom]
    cases digitValue? c with
    | none => rfl
    | some d => exact ih

/-- A numeral is read back as its number. -/
theorem valueFrom_digits : valueFrom 0 (digits n) = some n := by
  fun_induction digits n with
  | case1 n hsmall =>
    rw [valueFrom, digitValue?_digitChar hsmall]
    exact congrArg some (Nat.zero_add n)
  | case2 n _ ih =>
    rw [valueFrom_append, ih]
    have hlast := digitValue?_digitChar (Nat.mod_lt n (by decide : 10 > 0))
    simp only [valueFrom, hlast, bind, Option.bind]
    exact congrArg some (Nat.div_add_mod n 10)

/-- A nonempty sequence of digits is read from its first one on. -/
theorem value?_of_ne_nil (h : cs ≠ []) : value? cs = valueFrom 0 cs := by
  cases cs with
  | nil => exact absurd rfl h
  | cons c cs => rfl

/-- The number of a numeral is the one that it was written for. -/
theorem value?_digits : value? (digits n) = some n :=
  (value?_of_ne_nil digits_ne_nil).trans valueFrom_digits

theorem value?_padded : value? (padded n) = some n := by
  rw [padded]
  split
  case isTrue => exact valueFrom_digits
  case isFalse => exact value?_digits

/-- Different numbers have different numerals. -/
theorem digits_injective : Function.Injective digits := fun m n h => by
  have hvalue := congrArg value? h
  rw [value?_digits, value?_digits] at hvalue
  exact Option.some.inj hvalue

theorem padded_injective : Function.Injective padded := fun m n h => by
  have hvalue := congrArg value? h
  rw [value?_padded, value?_padded] at hvalue
  exact Option.some.inj hvalue

/-- A character that is no digit does not occur in a numeral. -/
theorem not_mem_digits (h : digitValue? c = none) : c ∉ digits n := by
  have hne : ∀ d < 10, c ≠ digitChar d := by
    rintro d hd rfl
    rw [digitValue?_digitChar hd] at h
    cases h
  fun_induction digits n with
  | case1 n hsmall => simpa using hne n hsmall
  | case2 n _ ih =>
    have hlast := hne (n % 10) (Nat.mod_lt n (by decide))
    simp [ih, hlast]

/-- A mark that is no digit does not occur in a numeral. -/
theorem not_mem_padded (h : digitValue? c = none) : c ∉ padded n := by
  rw [padded]
  split
  case isTrue =>
    have hzero : c ≠ '0' := by
      rintro rfl
      cases h
    simp [hzero, not_mem_digits h]
  case isFalse => exact not_mem_digits h

/-! ### Whole numbers -/

/-- A sign in front of different texts of different numbers keeps them apart. -/
theorem signed_injective {text : Nat → List Char} (htext : Function.Injective text)
    (hminus : ∀ n, '-' ∉ text n) :
    Function.Injective fun x : Int => if x < 0 then '-' :: text x.natAbs else text x.natAbs := by
  have hstart : ∀ {m n : Nat}, text m ≠ '-' :: text n := by
    intro m n h
    have hnone := hminus m
    rw [h] at hnone
    exact hnone List.mem_cons_self
  intro x y h
  dsimp only at h
  split at h <;> split at h
  case isTrue.isTrue hx hy =>
    have habs := htext (List.cons.inj h).2
    exact (Int.natAbs_inj_of_nonpos_of_nonpos hx.le hy.le).mp habs
  case isTrue.isFalse => exact absurd h.symm hstart
  case isFalse.isTrue => exact absurd h hstart
  case isFalse.isFalse hx hy =>
    have habs := htext h
    exact (Int.natAbs_inj_of_nonneg_of_nonneg (not_lt.mp hx) (not_lt.mp hy)).mp habs

theorem signedDigits_injective : Function.Injective signedDigits :=
  signed_injective digits_injective fun _ => not_mem_digits rfl

/-- The library writes numbers the same way. -/
theorem toDigits_eq_digits : Nat.toDigits 10 n = digits n := by
  have hchar : ∀ d < 10, Nat.digitChar d = digitChar d := by decide
  fun_induction digits n with
  | case1 n hsmall => rw [Nat.toDigits_of_lt_base hsmall, hchar n hsmall]
  | case2 n hlarge ih =>
    rw [Nat.toDigits_of_base_le (by decide) (not_lt.mp hlarge), ih,
      hchar _ (Nat.mod_lt n (by decide))]

theorem toList_toString_nat : (toString n).toList = digits n := by
  rw [Nat.toString_eq_repr, Nat.toList_repr, toDigits_eq_digits]

theorem toList_toString_int {x : Int} : (toString x).toList = signedDigits x := by
  rw [Int.toString_eq_repr, Int.repr_eq_if, signedDigits]
  split
  case isTrue hx =>
    rw [if_neg (not_lt.mpr hx), Nat.toList_repr, toDigits_eq_digits,
      show x.toNat = x.natAbs by omega]
  case isFalse hx =>
    rw [if_pos (not_le.mp hx), String.toList_append, Nat.toList_repr, toDigits_eq_digits,
      show (-x).toNat = x.natAbs by omega]
    rfl

/-! ### Marks -/

/-- Where a mark occurs for the first time, texts are cut in the same way. -/
theorem append_mark_inj (h : c ∉ front) (h' : c ∉ front')
    (heq : front ++ c :: back = front' ++ c :: back') : front = front' ∧ back = back' := by
  induction front generalizing front' with
  | nil =>
    cases front' with
    | nil => exact ⟨rfl, (List.cons.inj heq).2⟩
    | cons c' front' => exact absurd (List.cons.inj heq).1 (List.ne_of_not_mem_cons h')
  | cons c₀ front ih =>
    cases front' with
    | nil => exact absurd (List.cons.inj heq).1.symm (List.ne_of_not_mem_cons h)
    | cons c' front' =>
      obtain ⟨rfl, hrest⟩ := List.cons.inj heq
      obtain ⟨rfl, hback⟩ := ih (List.not_mem_of_not_mem_cons h) (List.not_mem_of_not_mem_cons h')
        hrest
      exact ⟨rfl, hback⟩

/-- So they are where it occurs for the last time. -/
theorem append_lastMark_inj (h : c ∉ back) (h' : c ∉ back')
    (heq : front ++ c :: back = front' ++ c :: back') : front = front' ∧ back = back' := by
  have hreverse := congrArg List.reverse heq
  simp only [List.reverse_append, List.reverse_cons, List.append_assoc,
    List.singleton_append] at hreverse
  obtain ⟨hback, hfront⟩ := append_mark_inj (by simpa using h) (by simpa using h') hreverse
  exact ⟨List.reverse_inj.mp hfront, List.reverse_inj.mp hback⟩

end JourneyPlanner.Text
