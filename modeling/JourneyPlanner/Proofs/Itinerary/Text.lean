import JourneyPlanner.Itinerary.Text
import JourneyPlanner.Proofs.Clock.Time

/-!
# What the text of an itinerary tells

The text of an itinerary ends with its times, its length, its transfers and its cost. None of them
is written with a blank, so the last blanks of a text tell them apart, whatever the names of trips
before them are made of.

* `Itinerary.SameSummary`: itineraries with the same times, transfers and cost.
* `Itinerary.toText_eq_ok`: the end of a text.
* `Itinerary.sameSummary_of_toText`: itineraries with the same text have the same summary.
-/

namespace JourneyPlanner

open Text (append_lastMark_inj not_mem_digits digits_injective signedDigits_injective digits
  signedDigits toList_toString_nat toList_toString_int)

namespace Itinerary

/-- Two itineraries start and end at the same times, with as many transfers and at the same cost. -/
structure SameSummary (it other : Itinerary) : Prop where
  start_eq : other.startTime = it.startTime
  end_eq : other.endTime = it.endTime
  transfers_eq : other.transferCount = it.transferCount
  cost_eq : other.cost = it.cost

variable {it other : Itinerary} {text : String}

/-- The text of an itinerary ends with the words of its summary, each after a blank. -/
theorem toText_eq_ok (h : it.toText = .ok text) : ∃ front start stop length,
    Time.format it.startTime = .ok start ∧ Time.format it.endTime = .ok stop ∧
    ' ' ∉ length ∧ text.toList = front ++ ' ' :: ('[' :: start.toList) ++ ' ' :: stop.toList ++
      ' ' :: length ++ ' ' :: ('T' :: 'x' :: digits it.transferCount) ++
      ' ' :: ('C' :: signedDigits it.cost ++ [']']) := by
  obtain ⟨access, -, h⟩ := bind_eq_ok.mp h
  obtain ⟨legs, -, h⟩ := bind_eq_ok.mp h
  obtain ⟨egress, -, h⟩ := bind_eq_ok.mp h
  obtain ⟨summary, hsummary, h⟩ := bind_eq_ok.mp h
  obtain ⟨start, hstart, hsummary⟩ := bind_eq_ok.mp hsummary
  obtain ⟨stop, hstop, hsummary⟩ := bind_eq_ok.mp hsummary
  obtain ⟨duration, -, hsummary⟩ := bind_eq_ok.mp hsummary
  obtain ⟨length, hlength, hsummary⟩ := bind_eq_ok.mp hsummary
  cases hsummary
  cases h
  refine ⟨(String.intercalate " ~ "
      ((access ++ " ~ " ++ toString it.access.leg.stop) :: legs ++ [egress])).toList,
    start, stop, length.toList, hstart, hstop, Span.not_mem_of_format hlength, ?_⟩
  simp only [String.toList_append, toList_toString_nat, toList_toString_int, List.append_assoc]
  rfl

/-- Itineraries that read the same start and end at the same times, with as many transfers and at
the same cost. -/
theorem sameSummary_of_toText (h : it.toText = .ok text) (h' : other.toText = .ok text) :
    it.SameSummary other := by
  obtain ⟨front, start, stop, length, hstart, hstop, hlength, htext⟩ := toText_eq_ok h
  obtain ⟨front', start', stop', length', hstart', hstop', hlength', htext'⟩ := toText_eq_ok h'
  have htransfers : ∀ n, ' ' ∉ 'T' :: 'x' :: digits n := fun n => by
    have hnone : ' ' ∉ digits n := not_mem_digits rfl
    simp [hnone]
  have hcost : ∀ x, ' ' ∉ 'C' :: signedDigits x ++ [']'] := fun x => by
    have hnone : ' ' ∉ digits x.natAbs := not_mem_digits rfl
    unfold signedDigits
    split <;> simp [hnone]
  have hbracket : ∀ {time start}, Time.format time = .ok start → ' ' ∉ '[' :: start.toList :=
    fun hformat => by simp [Time.not_mem_of_format hformat]
  -- the words are read from the last one on
  have heq := htext.symm.trans htext'
  obtain ⟨heq, hsameCost⟩ := append_lastMark_inj (hcost _) (hcost _) heq
  obtain ⟨heq, hsameTransfers⟩ := append_lastMark_inj (htransfers _) (htransfers _) heq
  obtain ⟨heq, -⟩ := append_lastMark_inj hlength hlength' heq
  obtain ⟨heq, hsameStop⟩ := append_lastMark_inj (Time.not_mem_of_format hstop)
    (Time.not_mem_of_format hstop') heq
  obtain ⟨-, hsameStart⟩ := append_lastMark_inj (hbracket hstart) (hbracket hstart') heq
  obtain rfl := String.toList_inj.mp (List.cons.inj hsameStart).2
  obtain rfl := String.toList_inj.mp hsameStop
  refine ⟨Time.eq_of_format hstart' hstart, Time.eq_of_format hstop' hstop, ?_, ?_⟩
  · exact digits_injective (List.cons.inj (List.cons.inj hsameTransfers).2).2.symm
  · exact signedDigits_injective (List.append_cancel_right (List.cons.inj hsameCost).2).symm

end Itinerary

end JourneyPlanner
