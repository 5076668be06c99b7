import Mathlib.Data.List.DropRight
import JourneyPlanner.Text.Blank
import JourneyPlanner.Proofs.Text.Numeral

/-!
# Numerals, fields and blanks that are read

What the readers of texts accept, said without them: a numeral is a nonempty sequence of digits in
positional notation, fields are the texts between separators, and a trimmed text is what is left
between blanks.

* `readNat_eq_some_iff`: an unsigned numeral within a bound, with or without a plus sign.
* `isNumeral_padded`: the numerals that are written, with a leading zero where there is one.
* `split_intercalate`, `intercalate_split`: fields are cut where they were joined.
* `exists_trim`, `trim_append`: blanks around a text without blanks are left out, and nothing else.
-/

namespace JourneyPlanner.Text

variable {c : Char} {cs front back : List Char} {fields : List (List Char)} {d n greatest : Nat}

/-! ### Numerals -/

/-- A nonempty sequence of the ten digits, the most significant one first, stands for a number. -/
structure IsNumeral (cs : List Char) (n : Nat) : Prop where
  nonempty : cs ≠ []
  isDigit : ∀ c ∈ cs, c.isDigit = true
  value : Nat.ofDigitChars 10 cs 0 = n

/-- A numeral that may have a plus sign in front. -/
inductive IsUnsigned : List Char → Nat → Prop
  | plain {cs : List Char} {n : Nat} (h : IsNumeral cs n) : IsUnsigned cs n
  | plus {cs : List Char} {n : Nat} (h : IsNumeral cs n) : IsUnsigned ('+' :: cs) n

theorem isDigit_iff : c.isDigit = true ↔ 48 ≤ c.toNat ∧ c.toNat ≤ 57 := by
  simp [Char.isDigit, UInt32.le_iff_toNat_le]

theorem digitValue?_eq_some_iff :
    digitValue? c = some d ↔ c.isDigit = true ∧ c.toNat - '0'.toNat = d := by
  rw [isDigit_iff, digitValue?, Option.ite_none_right_eq_some, Option.some.injEq]
  rfl

/-- A value is read from digits only, and it is the one that the library computes. -/
theorem valueFrom_eq_some_iff {value : Nat} :
    valueFrom value cs = some n ↔
      (∀ c ∈ cs, c.isDigit = true) ∧ Nat.ofDigitChars 10 cs value = n := by
  induction cs generalizing value with
  | nil => simp [valueFrom]
  | cons c cs ih =>
    rw [valueFrom, Option.bind_eq_bind, Option.bind_eq_some_iff, List.forall_mem_cons,
      Nat.ofDigitChars_cons]
    constructor
    · rintro ⟨d, hd, hrest⟩
      obtain ⟨hdigit, rfl⟩ := digitValue?_eq_some_iff.mp hd
      obtain ⟨hdigits, hvalue⟩ := ih.mp hrest
      exact ⟨⟨hdigit, hdigits⟩, hvalue⟩
    · rintro ⟨⟨hdigit, hdigits⟩, hvalue⟩
      exact ⟨_, digitValue?_eq_some_iff.mpr ⟨hdigit, rfl⟩, ih.mpr ⟨hdigits, hvalue⟩⟩

theorem value?_eq_some_iff : value? cs = some n ↔ IsNumeral cs n := by
  cases cs with
  | nil => exact ⟨nofun, fun h => absurd rfl h.nonempty⟩
  | cons c cs =>
    rw [value?, valueFrom_eq_some_iff]
    exact ⟨fun h => ⟨List.cons_ne_nil c cs, h.1, h.2⟩, fun h => ⟨h.isDigit, h.value⟩⟩

theorem isNumeral_padded : IsNumeral (padded n) n := value?_eq_some_iff.mp value?_padded

/-- A sign is no digit, so a text is an unsigned numeral in one way only. -/
theorem not_isNumeral_plus : ¬IsNumeral ('+' :: cs) n := fun h =>
  absurd (h.isDigit '+' List.mem_cons_self) (by decide)

/-- An unsigned numeral is read if its number is not too great. -/
theorem readNat_eq_some_iff : readNat greatest cs = some n ↔ IsUnsigned cs n ∧ n ≤ greatest := by
  have hbound : ∀ value : Option Nat,
      (value.bind fun n' => if n' ≤ greatest then some n' else none) = some n ↔
        value = some n ∧ n ≤ greatest := by
    intro value
    rw [Option.bind_eq_some_iff]
    constructor
    · rintro ⟨n', rfl, h⟩
      obtain ⟨hle, rfl⟩ : n' ≤ greatest ∧ n' = n := by simpa using h
      exact ⟨rfl, hle⟩
    · rintro ⟨rfl, hle⟩
      exact ⟨n, rfl, if_pos hle⟩
  unfold readNat
  rw [Option.bind_eq_bind, hbound]
  refine and_congr_left' ?_
  split
  case h_1 rest =>
    rw [value?_eq_some_iff]
    refine ⟨.plus, fun h => ?_⟩
    cases h with
    | plain h => exact absurd h not_isNumeral_plus
    | plus h => exact h
  case h_2 hsign =>
    rw [value?_eq_some_iff]
    refine ⟨.plain, fun h => ?_⟩
    cases h with
    | plain h => exact h
    | plus h => exact absurd rfl (hsign _)

/-- An unsigned numeral stands for one number. -/
theorem IsUnsigned.unique {n' : Nat} (h : IsUnsigned cs n) (h' : IsUnsigned cs n') : n = n' := by
  have hread := readNat_eq_some_iff.mpr ⟨h, le_max_left n n'⟩
  have hread' := readNat_eq_some_iff.mpr ⟨h', le_max_right n n'⟩
  exact Option.some.inj (hread.symm.trans hread')

/-- Unsigned numerals consist of digits and plus signs. -/
theorem IsUnsigned.mem (h : IsUnsigned cs n) (hc : c ∈ cs) : c.isDigit = true ∨ c = '+' := by
  cases h with
  | plain h => exact .inl (h.isDigit c hc)
  | plus h =>
    rcases List.mem_cons.mp hc with rfl | hc
    · exact .inr rfl
    · exact .inl (h.isDigit c hc)

/-! ### Fields -/

theorem split_eq_splitOn : split c cs = cs.splitOn c := by
  induction cs with
  | nil => rfl
  | cons c' cs ih =>
    rw [split, ih, List.splitOn_cons_eq_if_modifyHead]
    by_cases hseparator : c' = c
    · simp [hseparator]
    · simp only [hseparator, if_false, beq_iff_eq]
      cases hrest : cs.splitOn c with
      | nil => exact absurd hrest (List.splitOn_ne_nil c cs)
      | cons piece pieces => rfl

theorem intercalate_split : [c].intercalate (split c cs) = cs := by
  rw [split_eq_splitOn, List.intercalate_splitOn]

/-- Fields without a separator are got back from a text that joins them. -/
theorem split_intercalate (hne : fields ≠ []) (hfields : ∀ field ∈ fields, c ∉ field) :
    split c ([c].intercalate fields) = fields := by
  rw [split_eq_splitOn, List.splitOn_intercalate c hfields hne]

/-- Joined fields consist of their characters and of the separator. -/
theorem mem_intercalate {c' : Char} (h : c' ∈ [c].intercalate fields) :
    c' = c ∨ ∃ field ∈ fields, c' ∈ field := by
  induction fields with
  | nil => exact absurd h List.not_mem_nil
  | cons field fields ih =>
    cases fields with
    | nil =>
      rw [List.intercalate_singleton] at h
      exact .inr ⟨field, List.mem_cons_self, h⟩
    | cons next fields =>
      rw [List.intercalate_cons_cons, List.mem_append, List.mem_append, List.mem_singleton] at h
      rcases h with (h | h) | h
      · exact .inr ⟨field, List.mem_cons_self, h⟩
      · exact .inl h
      · exact (ih h).imp_right fun ⟨other, hother, hc⟩ =>
          ⟨other, List.mem_cons_of_mem _ hother, hc⟩

/-! ### Blanks -/

/-- Trimming takes blanks away on both sides. -/
theorem exists_trim (cs : List Char) :
    ∃ front back, (∀ c ∈ front, isBlank c = true) ∧ (∀ c ∈ back, isBlank c = true) ∧
      cs = front ++ trim cs ++ back := by
  refine ⟨cs.takeWhile isBlank, (cs.dropWhile isBlank).rtakeWhile isBlank,
    fun c hc => List.mem_takeWhile_imp hc, fun c hc => List.mem_rtakeWhile_imp hc, ?_⟩
  have htrim : trim cs = (cs.dropWhile isBlank).rdropWhile isBlank := rfl
  rw [htrim, List.append_assoc, List.rdropWhile_append_rtakeWhile, List.takeWhile_append_dropWhile]

/-- Only the blanks around a text are taken away. -/
theorem trim_append (hfront : ∀ c ∈ front, isBlank c = true)
    (hback : ∀ c ∈ back, isBlank c = true) (hcs : ∀ c ∈ cs, isBlank c = false) :
    trim (front ++ cs ++ back) = cs := by
  have hkeep : ∀ ds : List Char, (∀ c ∈ ds, isBlank c = false) → ds.dropWhile isBlank = ds :=
    fun ds hds => List.dropWhile_eq_self_iff.mpr fun hlength => by
      simp [hds _ (List.getElem_mem hlength)]
  rw [List.append_assoc, trim, dropBlank, dropBlank, List.dropWhile_append_of_pos hfront,
    List.dropWhile_append, hkeep cs hcs]
  cases cs with
  | nil => simp [List.dropWhile_eq_nil_iff.mpr hback]
  | cons c cs =>
    have hreverse : ((c :: cs).reverse).dropWhile isBlank = (c :: cs).reverse :=
      hkeep _ fun c' hc' => hcs c' (List.mem_reverse.mp hc')
    rw [if_neg (by simp), List.reverse_append,
      List.dropWhile_append_of_pos fun c' hc' => hback c' (List.mem_reverse.mp hc'), hreverse,
      List.reverse_reverse]

end JourneyPlanner.Text
