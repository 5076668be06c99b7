import Mathlib.Tactic.Linarith
import Mathlib.Tactic.Ring
import JourneyPlanner.Direction
import JourneyPlanner.Proofs.Checked

/-!
# Times and positions in a direction

`Direction.gap` counts the seconds from one time to another in a direction, negative when the
second is met first. Every comparison of a search is a comparison of such gaps, and the lemmas
here bring both directions to the same arithmetic.
-/

namespace JourneyPlanner

namespace Direction

/-- The seconds from one time to another, as a number of any size. -/
def gap (d : Direction) (start stop : Time) : Int :=
  match d with
  | .forward => stop - start
  | .reverse => start - stop

/-- A time is met no later than another one. -/
def NoLater (d : Direction) (time other : Time) : Prop := 0 ≤ d.gap time other

instance (d : Direction) (time other : Time) : Decidable (d.NoLater time other) :=
  inferInstanceAs (Decidable (0 ≤ _))

section

variable {d : Direction} {a b c x y : Int}

theorem noLater_iff : d.NoLater a b ↔ 0 ≤ d.gap a b := Iff.rfl

@[simp] theorem noLater_forward : Direction.forward.NoLater a b ↔ a ≤ b := by
  simp [NoLater, gap]

@[simp] theorem noLater_reverse : Direction.reverse.NoLater a b ↔ b ≤ a := by
  simp [NoLater, gap]

@[simp] theorem gap_self : d.gap a a = 0 := by
  cases d <;> simp [gap]

theorem gap_shift_left : d.gap (d.shift a x) b = d.gap a b - x := by
  cases d <;> simp only [gap, shift] <;> ring

theorem gap_shift_right : d.gap a (d.shift b x) = d.gap a b + x := by
  cases d <;> simp only [gap, shift] <;> ring

theorem gap_add_gap : d.gap a b + d.gap b c = d.gap a c := by
  cases d <;> simp only [gap] <;> ring

@[simp] theorem shift_zero : d.shift a 0 = a := by
  cases d <;> simp [shift]

theorem shift_shift : d.shift (d.shift a x) y = d.shift a (x + y) := by
  cases d <;> simp only [shift] <;> ring

theorem opposite_opposite (d : Direction) : d.opposite.opposite = d := by cases d <;> rfl

theorem opposite_gap : d.opposite.gap a b = d.gap b a := by
  cases d <;> rfl

theorem NoLater.refl : d.NoLater a a := by simp [NoLater]

theorem NoLater.trans (h : d.NoLater a b) (h' : d.NoLater b c) : d.NoLater a c := by
  have := gap_add_gap (d := d) (a := a) (b := b) (c := c)
  simp only [noLater_iff] at *
  omega

theorem NoLater.antisymm (h : d.NoLater a b) (h' : d.NoLater b a) : a = b := by
  cases d <;> simp at h h' <;> linarith

theorem noLater_shift_iff : d.NoLater a (d.shift b x) ↔ 0 ≤ d.gap a b + x := by
  rw [noLater_iff, gap_shift_right]

theorem shift_noLater_iff : d.NoLater (d.shift a x) b ↔ x ≤ d.gap a b := by
  rw [noLater_iff, gap_shift_left]
  omega

theorem shift_noLater_shift_iff :
    d.NoLater (d.shift a x) (d.shift b y) ↔ x ≤ d.gap a b + y := by
  rw [shift_noLater_iff, gap_shift_right]

/-- A later start and a longer span lead to a later time. -/
theorem NoLater.shift (h : d.NoLater a b) (hxy : x ≤ y) :
    d.NoLater (d.shift a x) (d.shift b y) := by
  rw [shift_noLater_shift_iff]
  rw [noLater_iff] at h
  omega

/-- The seconds between two times are those to the later one. -/
theorem NoLater.natAbs_sub (h : d.NoLater a b) : ((b - a).natAbs : Int) = d.gap a b := by
  cases d <;> simp only [NoLater, gap] at h ⊢ <;> omega

theorem isBefore_eq_false_iff : d.isBefore a b = false ↔ d.NoLater b a := by
  cases d <;> simp [isBefore]

theorem isBeforeOrEqual_iff : d.isBeforeOrEqual a b = true ↔ d.NoLater a b := by
  cases d <;> simp only [isBeforeOrEqual, isBefore, noLater_forward, noLater_reverse] <;> grind

theorem noLater_worst_iff : d.NoLater (d.worst a b) c ↔ d.NoLater a c ∧ d.NoLater b c := by
  cases d <;> simp only [worst, isBefore, noLater_forward, noLater_reverse] <;> grind

/-! ### Checked times -/

theorem yields_plus : Yields (d.plus a x) fun time => time = d.shift a x ∧ IsWord time := by
  refine (yields_word _).mono ?_
  rintro time - ⟨rfl, h⟩
  exact ⟨rfl, h⟩

theorem yields_minus : Yields (d.minus a x) fun time => time = d.shift a (-x) := by
  refine (yields_word _).bind ?_
  rintro y - ⟨rfl, -⟩
  exact yields_plus.mono fun _ _ h => h.1

theorem yields_elapsed : Yields (d.elapsed a b) fun span => span = d.gap a b := by
  cases d <;> exact (yields_word _).mono fun _ _ h => h.1

end

/-! ### Positions -/

section

variable {d : Direction} {p q r first count : Nat}

/-- A position is not visited before another one. -/
def AtOrAfter (d : Direction) (first position : Nat) : Prop := d.precedes position first = false

theorem precedes_trans (h : d.precedes p q = true) (h' : d.precedes q r = true) :
    d.precedes p r = true := by
  cases d <;> simp [precedes] at * <;> omega

theorem precedes_irrefl : d.precedes p p = false := by
  cases d <;> simp [precedes]

theorem AtOrAfter.refl : d.AtOrAfter p p := precedes_irrefl

theorem AtOrAfter.trans (h : d.AtOrAfter p q) (h' : d.AtOrAfter q r) : d.AtOrAfter p r := by
  cases d <;> simp [AtOrAfter, precedes] at * <;> omega

theorem atOrAfter_of_precedes (h : d.precedes p q = true) : d.AtOrAfter p q := by
  cases d <;> simp [AtOrAfter, precedes] at * <;> omega

theorem opposite_precedes : d.opposite.precedes p q = d.precedes q p := by
  cases d <;> rfl

theorem mem_positionsFrom (hfirst : first < count) :
    p ∈ d.positionsFrom first count ↔ d.AtOrAfter first p ∧ p < count := by
  cases d <;> simp [positionsFrom, AtOrAfter, precedes, List.mem_range'_1] <;> omega

/-- Positions are visited in the order of their direction. -/
theorem positionsFrom_pairwise (d : Direction) (first count : Nat) :
    (d.positionsFrom first count).Pairwise fun p q => d.precedes p q = true := by
  cases d with
  | forward => simpa [positionsFrom, precedes] using List.pairwise_lt_range' (s := first)
  | reverse =>
    rw [positionsFrom, List.pairwise_reverse]
    simpa [precedes] using List.pairwise_lt_range (n := first + 1)

/-- The positions visited before one of them are those that precede it. -/
theorem mem_before_iff {before after : List Nat}
    (hsplit : d.positionsFrom first count = before ++ q :: after)
    (hp : p ∈ d.positionsFrom first count) : p ∈ before ↔ d.precedes p q = true := by
  have hsorted := positionsFrom_pairwise d first count
  rw [hsplit, List.pairwise_append] at hsorted
  constructor
  · intro hbefore
    exact hsorted.2.2 p hbefore q (by simp)
  · intro hprecedes
    rw [hsplit, List.mem_append, List.mem_cons] at hp
    rcases hp with hbefore | rfl | hafter
    · exact hbefore
    · rw [precedes_irrefl] at hprecedes
      cases hprecedes
    · have := precedes_trans hprecedes (List.rel_of_pairwise_cons hsorted.2.1 hafter)
      rw [precedes_irrefl] at this
      cases this

end

end Direction

end JourneyPlanner
