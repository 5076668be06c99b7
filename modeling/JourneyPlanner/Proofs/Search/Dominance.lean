import JourneyPlanner.Search.Labels
import JourneyPlanner.Proofs.Front
import JourneyPlanner.Proofs.Network.Timetable

/-!
# The comparisons of the search for labels

The three comparisons of a search are orders, and what each of them says in terms of times, ranks
and costs.
-/

namespace JourneyPlanner

namespace Direction

variable {d : Direction}

theorem dominatesAtStop_iff {a b : StopCriteria} :
    d.dominatesAtStop a b = true ↔
      d.NoLater a.time b.time ∧ a.cost ≤ b.cost ∧ (b.onBoard = true → a.onBoard = true) := by
  simp only [dominatesAtStop, Bool.and_eq_true, isBeforeOrEqual_iff, decide_eq_true_eq, and_assoc]
  cases a.onBoard <;> cases b.onBoard <;> simp

theorem dominatesJourney_iff {a b : JourneyCriteria} :
    d.dominatesJourney a b = true ↔
      d.NoLater a.time b.time ∧ a.transfers ≤ b.transfers ∧ a.cost ≤ b.cost := by
  simp only [dominatesJourney, Bool.and_eq_true, isBeforeOrEqual_iff, decide_eq_true_eq, and_assoc]

theorem dominatesAboard_iff {a b : AboardCriteria} :
    d.dominatesAboard a b = true ↔
      a.factor = b.factor ∧ d.RankNoLater a.rank b.rank ∧ a.relativeCost ≤ b.relativeCost := by
  cases d <;> simp [dominatesAboard, RankNoLater, and_assoc]

theorem dominatesAtStop_isOrder (d : Direction) : d.dominatesAtStop.IsOrder where
  refl a := dominatesAtStop_iff.mpr ⟨NoLater.refl, le_rfl, id⟩
  trans := by
    intro a b c h h'
    rw [dominatesAtStop_iff] at *
    exact ⟨h.1.trans h'.1, h.2.1.trans h'.2.1, fun hc => h.2.2 (h'.2.2 hc)⟩
  antisymm := by
    rintro ⟨time, cost, onBoard⟩ ⟨time', cost', onBoard'⟩ h h'
    rw [dominatesAtStop_iff] at *
    obtain rfl : time = time' := h.1.antisymm h'.1
    obtain rfl : cost = cost' := le_antisymm h.2.1 h'.2.1
    obtain rfl : onBoard = onBoard' := Bool.eq_iff_iff.mpr ⟨h'.2.2, h.2.2⟩
    rfl

theorem dominatesJourney_isOrder (d : Direction) : d.dominatesJourney.IsOrder where
  refl a := dominatesJourney_iff.mpr ⟨NoLater.refl, le_rfl, le_rfl⟩
  trans := by
    intro a b c h h'
    rw [dominatesJourney_iff] at *
    exact ⟨h.1.trans h'.1, h.2.1.trans h'.2.1, h.2.2.trans h'.2.2⟩
  antisymm := by
    rintro ⟨time, transfers, cost⟩ ⟨time', transfers', cost'⟩ h h'
    rw [dominatesJourney_iff] at *
    obtain rfl : time = time' := h.1.antisymm h'.1
    obtain rfl : transfers = transfers' := le_antisymm h.2.1 h'.2.1
    obtain rfl : cost = cost' := le_antisymm h.2.2 h'.2.2
    rfl

theorem dominatesAboard_isOrder (d : Direction) : d.dominatesAboard.IsOrder where
  refl a := dominatesAboard_iff.mpr ⟨rfl, RankNoLater.refl, le_rfl⟩
  trans := by
    intro a b c h h'
    rw [dominatesAboard_iff] at *
    exact ⟨h.1.trans h'.1, h.2.1.trans h'.2.1, h.2.2.trans h'.2.2⟩
  antisymm := by
    rintro ⟨rank, relativeCost, factor⟩ ⟨rank', relativeCost', factor'⟩ h h'
    rw [dominatesAboard_iff] at *
    obtain rfl : rank = rank' := h.2.1.antisymm h'.2.1
    obtain rfl : relativeCost = relativeCost' := le_antisymm h.2.2 h'.2.2
    obtain rfl : factor = factor' := h.1
    rfl

end Direction

end JourneyPlanner
